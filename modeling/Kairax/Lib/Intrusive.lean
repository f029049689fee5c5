import Mathlib.Data.List.Nodup
import Mathlib.Logic.Function.Basic
import Kairax.Lib.Chain

/-!
# Intrusive queues

Nodes carry one pair of links, and a queue is the pair of its ends. Several queues can share the links as long as a
node is in one of them at most.
-/

namespace Kairax.Lib

open List Option Function

structure Link (T : Type*) where
  prev : Option T
  next : Option T
  deriving DecidableEq

structure Ends (T : Type*) where
  head : Option T
  tail : Option T
  deriving DecidableEq

namespace Link

variable {T : Type*}

def free : Link T := ⟨none, none⟩

def Holds (link : T → Link T) (t : T) (prev next : Option T) : Prop := link t = ⟨prev, next⟩

end Link

theorem chain_iff {Mem Addr Rec : Type*} {addr : Rec → Addr} {holds : Mem → Rec → Addr → Addr → Prop} {m : Mem}
    {prev next : Addr} {rs : List Rec} :
    Chain addr holds m prev rs next ↔
      ∀ xs r ys, rs = xs ++ r :: ys → holds m r (lastOr addr prev xs) (headOr addr next ys) := by
  constructor
  · rintro hchain xs r ys rfl
    exact hchain.at_middle
  · intro hall
    induction rs generalizing prev with
    | nil => trivial
    | cons r rs ih =>
      refine ⟨hall [] r rs rfl, ih fun xs r' ys hsplit => ?_⟩
      exact hall (r :: xs) r' ys (congrArg (r :: ·) hsplit)

section Queue

variable {T : Type*} {link link' : T → Link T} {ends : Ends T} {l a b : List T} {t : T}

def IsQueue (link : T → Link T) (ends : Ends T) (l : List T) : Prop :=
  ends = ⟨headOr some none l, lastOr some none l⟩ ∧ Chain some Link.Holds link none l none

theorem IsQueue.link_eq (hqueue : IsQueue link ends (a ++ t :: b)) :
    link t = ⟨lastOr some none a, headOr some none b⟩ :=
  hqueue.2.at_middle

theorem isQueue_nil : IsQueue link ⟨none, none⟩ [] := ⟨rfl, trivial⟩

variable (hqueue : IsQueue link ends l)

include hqueue in
theorem IsQueue.head_eq_none : ends.head = none ↔ l = [] := by
  rw [hqueue.1]
  cases l with
  | nil => exact iff_of_true rfl rfl
  | cons x l => exact iff_of_false (some_ne_none x) (cons_ne_nil x l)

theorem lastOr_concat (prev : Option T) (l : List T) (t : T) : lastOr some prev (l ++ [t]) = some t := by
  rw [lastOr_append]
  rfl

theorem mem_of_lastOr {prev : Option T} (hlast : lastOr some prev l = some t) : prev = some t ∨ t ∈ l := by
  induction l generalizing prev with
  | nil => exact .inl hlast
  | cons x l ih =>
    right
    obtain hx | hmem := ih hlast
    · exact mem_cons.mpr (.inl (some.inj hx).symm)
    · exact mem_cons_of_mem x hmem

theorem mem_of_headOr (hhead : headOr some none l = some t) : t ∈ l := by
  cases l with
  | nil => cases hhead
  | cons x l => exact mem_cons.mpr (.inl (some.inj hhead).symm)

include hqueue

theorem IsQueue.tail_eq_none : ends.tail = none ↔ l = [] := by
  rw [hqueue.1]
  obtain rfl | ⟨a, x, rfl⟩ := l.eq_nil_or_concat
  · exact iff_of_true rfl rfl
  · rw [concat_eq_append]
    refine iff_of_false ?_ (append_ne_nil_of_right_ne_nil a (cons_ne_nil x []))
    rw [lastOr_concat]
    exact some_ne_none x

theorem IsQueue.frame (hkeep : ∀ x ∈ l, link' x = link x) : IsQueue link' ends l :=
  ⟨hqueue.1, hqueue.2.frame fun x hx _ _ hold => (hkeep x hx).trans hold⟩

omit hqueue

theorem last_ne {x y : T} (hnodup : (a ++ x :: y :: b).Nodup) : lastOr some none (a ++ x :: y :: b) ≠ some x := by
  intro hlast
  rw [lastOr_append] at hlast
  have hlater : x ∈ y :: b := by
    obtain hx | hmem := mem_of_lastOr (l := b) hlast
    · exact mem_cons.mpr (.inl (some.inj hx).symm)
    · exact mem_cons_of_mem y hmem
  exact (nodup_cons.mp (nodup_append.mp hnodup).2.1).1 hlater

include hqueue

theorem IsQueue.singleton_iff (hnodup : l.Nodup) : ends = ⟨some t, some t⟩ ↔ l = [t] := by
  constructor
  · intro hends
    rw [hqueue.1] at hends
    obtain ⟨hhead, htail⟩ := Ends.mk.inj hends
    cases l with
    | nil => cases hhead
    | cons x l =>
      obtain rfl : x = t := some.inj hhead
      cases l with
      | nil => rfl
      | cons y l => exact absurd htail (last_ne (a := []) hnodup)
  · rintro rfl
    exact hqueue.1

theorem IsQueue.free_iff (hmem : t ∈ l) : link t = .free ↔ l = [t] := by
  obtain ⟨a, b, rfl⟩ := append_of_mem hmem
  rw [hqueue.link_eq]
  constructor
  · intro hfree
    obtain ⟨hprev, hnext⟩ := Link.mk.inj hfree
    cases b with
    | cons y b => cases hnext
    | nil =>
      obtain rfl | ⟨a, x, rfl⟩ := a.eq_nil_or_concat
      · rfl
      · rw [concat_eq_append, lastOr_concat] at hprev
        cases hprev
  · intro hsingle
    obtain ⟨rfl, hb⟩ := append_eq_singleton_iff.mp hsingle |>.resolve_right fun h => cons_ne_nil t b h.2
    rw [(cons.inj hb).2]
    rfl

theorem IsQueue.concat (hnodup : l.Nodup) (hnew : link' t = ⟨ends.tail, none⟩)
    (hlast : ∀ x ∈ l, ends.tail = some x → link' x = { link x with next := some t })
    (hkeep : ∀ x ∈ l, ends.tail ≠ some x → link' x = link x) :
    IsQueue link' ⟨ends.head.or (some t), some t⟩ (l ++ [t]) := by
  have hends := hqueue.1
  refine ⟨?_, chain_iff.mpr ?_⟩
  · rw [lastOr_concat, hends]
    cases l <;> rfl
  · intro a x b hsplit
    obtain rfl | ⟨b, z, rfl⟩ := b.eq_nil_or_concat
    · obtain ⟨rfl, hx⟩ := append_inj' hsplit rfl
      obtain rfl := (cons.inj hx).1
      rw [Link.Holds, hnew, hends]
      rfl
    · rw [concat_eq_append, ← cons_append, ← append_assoc] at hsplit
      obtain ⟨rfl, hz⟩ := append_inj' hsplit rfl
      obtain rfl := (cons.inj hz).1
      have hlink := hqueue.link_eq
      have hmem : x ∈ a ++ x :: b := mem_append_right a mem_cons_self
      rw [Link.Holds]
      cases b with
      | nil =>
        rw [hlast x hmem (by rw [hends, lastOr_concat]), hlink]
        rfl
      | cons y b =>
        rw [hkeep x hmem ?_, hlink]
        · rfl
        · intro htail
          rw [hends] at htail
          exact last_ne hnodup htail

omit hqueue

theorem append_eq_append_cons {c d : List T} {x : T} (hsplit : a ++ b = c ++ x :: d) :
    (∃ e, a = c ++ x :: e ∧ d = e ++ b) ∨ ∃ e, b = e ++ x :: d ∧ c = a ++ e := by
  obtain ⟨e, rfl, hb⟩ | ⟨e, rfl, hd⟩ := append_eq_append_iff.mp hsplit
  · exact .inr ⟨e, hb, rfl⟩
  · cases e with
    | nil => exact .inr ⟨[], hd.symm, by rw [append_nil, append_nil]⟩
    | cons y e =>
      obtain ⟨rfl, rfl⟩ := cons.inj hd
      exact .inl ⟨e, rfl, rfl⟩

theorem IsQueue.erase (hqueue : IsQueue link ends (a ++ t :: b)) (hnodup : (a ++ t :: b).Nodup)
    (hlast : ∀ x ∈ a, lastOr some none a = some x → link' x = { link x with next := headOr some none b })
    (hfirst : ∀ x ∈ b, headOr some none b = some x → link' x = { link x with prev := lastOr some none a })
    (hkeep : ∀ x ∈ a ++ b, lastOr some none a ≠ some x → headOr some none b ≠ some x → link' x = link x) :
    IsQueue link' ⟨headOr some none (a ++ b), lastOr some none (a ++ b)⟩ (a ++ b) := by
  have hapart : ∀ x ∈ a, x ∉ b := by
    intro x ha hb
    exact (nodup_append.mp hnodup).2.2 x ha x (mem_cons_of_mem t hb) rfl
  refine ⟨rfl, chain_iff.mpr fun c x d hsplit => ?_⟩
  rw [Link.Holds]
  obtain ⟨e, rfl, rfl⟩ | ⟨e, rfl, rfl⟩ := append_eq_append_cons hsplit
  · have hmem : x ∈ c ++ x :: e := mem_append_right c mem_cons_self
    have hlink : link x = ⟨lastOr some none c, headOr some none (e ++ t :: b)⟩ := by
      rw [append_assoc] at hqueue
      exact hqueue.link_eq
    cases e with
    | nil =>
      rw [hlast x hmem (lastOr_concat none c x), hlink]
      rfl
    | cons y e =>
      have hne : lastOr some none (c ++ x :: y :: e) ≠ some x := last_ne (nodup_append.mp hnodup).1
      rw [hkeep x (mem_append_left b hmem) hne fun h => hapart x hmem (mem_of_headOr h), hlink]
      rfl
  · have hmem : x ∈ e ++ x :: d := mem_append_right e mem_cons_self
    have hlink : link x = ⟨lastOr some none (a ++ t :: e), headOr some none d⟩ := by
      rw [← cons_append, ← append_assoc] at hqueue
      exact hqueue.link_eq
    cases e with
    | nil =>
      rw [hfirst x hmem rfl, hlink, append_nil]
    | cons y e =>
      have hne : headOr some none (y :: e ++ x :: d) ≠ some x := by
        intro hhead
        rw [← some.inj hhead] at hnodup
        have hrest := (nodup_cons.mp (nodup_append.mp hnodup).2.1).2
        exact (nodup_cons.mp hrest).1 (mem_append_right e mem_cons_self)
      rw [hkeep x (mem_append_right a hmem) (fun h => ?_) hne, hlink, lastOr_append, lastOr_append]
      · rfl
      · obtain h | h := mem_of_lastOr h
        · cases h
        · exact hapart x h hmem

theorem headOr_erase [DecidableEq T] (hout : t ∉ a) :
    headOr some none (a ++ b) =
      if headOr some none (a ++ t :: b) = some t then headOr some none b else headOr some none (a ++ t :: b) := by
  cases a with
  | nil => exact (if_pos rfl).symm
  | cons x a =>
    refine (if_neg fun h => hout ?_).symm
    exact mem_cons.mpr (.inl (some.inj h).symm)

theorem lastOr_erase [DecidableEq T] (hnodup : (a ++ t :: b).Nodup) :
    lastOr some none (a ++ b) =
      if lastOr some none (a ++ t :: b) = some t then lastOr some none a else lastOr some none (a ++ t :: b) := by
  cases b with
  | nil => rw [if_pos (lastOr_concat none a t), append_nil]
  | cons y b =>
    rw [if_neg (last_ne hnodup), lastOr_append, lastOr_append]
    rfl

end Queue

section Update

variable {T I : Type*} [DecidableEq I] {nodes : I → List T} {i j : I} {t x : T}

theorem mem_update_concat : x ∈ update nodes i (nodes i ++ [t]) j ↔ x ∈ nodes j ∨ j = i ∧ x = t := by
  by_cases hj : j = i
  · subst hj
    rw [update_self, mem_append, mem_singleton, and_iff_right rfl]
  · rw [update_of_ne hj, or_iff_left fun h => hj h.1]

theorem mem_update_erase [DecidableEq T] (hnodup : (nodes i).Nodup) :
    x ∈ update nodes i ((nodes i).erase t) j ↔ x ∈ nodes j ∧ ¬ (j = i ∧ x = t) := by
  by_cases hj : j = i
  · subst hj
    rw [update_self, hnodup.mem_erase_iff, and_comm, and_iff_right rfl]
  · rw [update_of_ne hj, and_iff_left fun h => hj h.1]

end Update

/-- Every queue holds its nodes, a node is in one queue at most, and the links of the others are empty. -/
structure Shared {T I : Type*} (link : T → Link T) (ends : I → Ends T) (nodes : I → List T) : Prop where
  queue : ∀ i, IsQueue link (ends i) (nodes i)
  nodup : ∀ i, (nodes i).Nodup
  apart : ∀ {i j t}, t ∈ nodes i → t ∈ nodes j → i = j
  free : ∀ t, (∀ i, t ∉ nodes i) → link t = .free

namespace Shared

variable {T I : Type*} {link link' : T → Link T} {ends : I → Ends T} {nodes : I → List T} {t : T}
  {i : I}

variable (hshared : Shared link ends nodes)

include hshared

theorem mem_tail {x : T} (htail : (ends i).tail = some x) : x ∈ nodes i := by
  rw [(hshared.queue i).1] at htail
  obtain h | hmem := mem_of_lastOr htail
  · cases h
  · exact hmem

theorem mem_neighbour (hmem : t ∈ nodes i) {x : T}
    (hx : (link t).prev = some x ∨ (link t).next = some x) : x ∈ nodes i ∧ x ≠ t := by
  obtain ⟨a, b, hsplit⟩ := append_of_mem hmem
  have hqueue := hshared.queue i
  have hnodup := hshared.nodup i
  rw [hsplit] at hqueue hnodup
  rw [hqueue.link_eq] at hx
  rw [hsplit]
  obtain hx | hx := hx
  · obtain h | ha := mem_of_lastOr hx
    · cases h
    · exact ⟨mem_append_left _ ha, fun h => (nodup_append.mp hnodup).2.2 x ha t mem_cons_self h⟩
  · have hb := mem_of_headOr hx
    refine ⟨mem_append_right _ (mem_cons_of_mem t hb), ?_⟩
    rintro rfl
    exact (nodup_cons.mp (nodup_append.mp hnodup).2.1).1 hb

theorem neighbour_none (hmem : t ∈ nodes i) :
    ((ends i).head = some t → (link t).prev = none) ∧ ((ends i).tail = some t → (link t).next = none) ∧
      ∀ x, (link t).prev = some x → (link t).next ≠ some x := by
  obtain ⟨a, b, hsplit⟩ := append_of_mem hmem
  have hqueue := hshared.queue i
  have hnodup := hshared.nodup i
  rw [hsplit] at hqueue hnodup
  rw [hqueue.link_eq, hqueue.1]
  refine ⟨fun hhead => ?_, fun htail => ?_, fun x hprev hnext => ?_⟩
  · cases a with
    | nil => rfl
    | cons y a =>
      have hy : y = t := some.inj hhead
      exact absurd (mem_append_right a mem_cons_self) (hy ▸ (nodup_cons.mp hnodup).1)
  · cases b with
    | nil => rfl
    | cons y b => exact absurd htail (last_ne hnodup)
  · obtain h | ha := mem_of_lastOr hprev
    · cases h
    · exact (nodup_append.mp hnodup).2.2 x ha x (mem_cons_of_mem t (mem_of_headOr hnext)) rfl

omit hshared

variable [DecidableEq I]

include hshared

theorem concat (hnew : ∀ j, t ∉ nodes j) (i : I) (hself : link' t = ⟨(ends i).tail, none⟩)
    (hlast : ∀ x, (ends i).tail = some x → link' x = { link x with next := some t })
    (hkeep : ∀ x, x ≠ t → (ends i).tail ≠ some x → link' x = link x) :
    Shared link' (update ends i ⟨(ends i).head.or (some t), some t⟩)
      (update nodes i (nodes i ++ [t])) := by
  have hne {j : I} {x : T} (hx : x ∈ nodes j) : x ≠ t := fun h => hnew j (h ▸ hx)
  refine ⟨fun j => ?_, ?_, fun hj hk => ?_, fun x hout => ?_⟩
  · by_cases hj : j = i
    · subst hj
      rw [update_self, update_self]
      exact (hshared.queue j).concat (hshared.nodup j) hself (fun x _ => hlast x) fun x hx => hkeep x (hne hx)
    · rw [update_of_ne hj, update_of_ne hj]
      refine (hshared.queue j).frame fun x hx => hkeep x (hne hx) fun htail => hj ?_
      exact hshared.apart hx (hshared.mem_tail htail)
  · rw [forall_update_iff nodes fun _ l => l.Nodup, ← concat_eq_append]
    exact ⟨(hshared.nodup i).concat (hnew i), fun j _ => hshared.nodup j⟩
  · rw [mem_update_concat] at hj hk
    obtain hj | ⟨rfl, rfl⟩ := hj
    · obtain hk | ⟨rfl, rfl⟩ := hk
      · exact hshared.apart hj hk
      · exact absurd hj (hnew _)
    · obtain hk | ⟨rfl, -⟩ := hk
      · exact absurd hk (hnew _)
      · rfl
  · have hold (j : I) : x ∉ nodes j := fun h => hout j (mem_update_concat.mpr (.inl h))
    have hxt : x ≠ t := fun h => hout i (mem_update_concat.mpr (.inr ⟨rfl, h⟩))
    rw [hkeep x hxt fun htail => hold i (hshared.mem_tail htail)]
    exact hshared.free x hold

theorem erase [DecidableEq T] (hmem : t ∈ nodes i) (hself : link' t = .free)
    (hlast : ∀ x, (link t).prev = some x → link' x = { link x with next := (link t).next })
    (hfirst : ∀ x, (link t).next = some x → link' x = { link x with prev := (link t).prev })
    (hkeep : ∀ x, x ≠ t → (link t).prev ≠ some x → (link t).next ≠ some x → link' x = link x) :
    Shared link'
      (update ends i
        ⟨if (ends i).head = some t then (link t).next else (ends i).head,
          if (ends i).tail = some t then (link t).prev else (ends i).tail⟩)
      (update nodes i ((nodes i).erase t)) := by
  have hsub {j : I} {x : T} (hx : x ∈ update nodes i ((nodes i).erase t) j) : x ∈ nodes j :=
    ((mem_update_erase (hshared.nodup i)).mp hx).1
  refine ⟨fun j => ?_, ?_, fun hj hk => hshared.apart (hsub hj) (hsub hk), fun x hout => ?_⟩
  · by_cases hj : j = i
    · subst hj
      rw [update_self, update_self]
      have hqueue := hshared.queue j
      have hnodup := hshared.nodup j
      obtain ⟨a, b, hsplit⟩ := append_of_mem hmem
      rw [hsplit] at hqueue hnodup
      have ha : t ∉ a := fun h => (nodup_append.mp hnodup).2.2 t h t mem_cons_self rfl
      have hb : t ∉ b := (nodup_cons.mp (nodup_append.mp hnodup).2.1).1
      have hne : ∀ x ∈ a ++ b, x ≠ t := by
        rintro x hx rfl
        obtain hx | hx := mem_append.mp hx
        · exact ha hx
        · exact hb hx
      have hlink := hqueue.link_eq
      rw [hlink] at hlast hfirst hkeep
      rw [hsplit, erase_append_right _ ha, erase_cons_head, hlink, hqueue.1]
      have herase := hqueue.erase hnodup (fun x _ => hlast x) (fun x _ => hfirst x) fun x hx => hkeep x (hne x hx)
      rwa [headOr_erase ha, lastOr_erase hnodup] at herase
    · rw [update_of_ne hj, update_of_ne hj]
      refine (hshared.queue j).frame fun x hx => hkeep x ?_ ?_ ?_
      · rintro rfl
        exact hj (hshared.apart hx hmem)
      · exact fun h => hj (hshared.apart hx (hshared.mem_neighbour hmem (.inl h)).1)
      · exact fun h => hj (hshared.apart hx (hshared.mem_neighbour hmem (.inr h)).1)
  · rw [forall_update_iff nodes fun _ l => l.Nodup]
    exact ⟨(hshared.nodup i).erase t, fun j _ => hshared.nodup j⟩
  · by_cases hxt : x = t
    · rw [hxt, hself]
    · have hold (j : I) : x ∉ nodes j := by
        intro hx
        exact hout j ((mem_update_erase (hshared.nodup i)).mpr ⟨hx, fun h => hxt h.2⟩)
      rw [hkeep x hxt (fun h => hold i (hshared.mem_neighbour hmem (.inl h)).1)
        fun h => hold i (hshared.mem_neighbour hmem (.inr h)).1]
      exact hshared.free x hold

end Shared

end Kairax.Lib
