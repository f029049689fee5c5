import Kairax.Proc.Futex

/-!
# Interleavings of futex calls

Every step of `futex_wait` and `futex_wake` keeps the objects, the places of the threads and the record of the wake-ups
as they should be, if it does not fall into one of the gaps. A lookup that does can be followed by an unsound state.
-/

namespace Kairax.Proc

open Lib List Option Function

variable {max : Nat}

namespace Futexes

variable {T A : Type*} {op : FutexOp T A} {p : Place A}

structure Inv [Fintype T] (s : Futexes T A) : Prop where
  objects : Objects s
  places : Places s
  heard : Heard s

section Steps

variable {s s' : Futexes T A} {t : T} {a : A} {k : Nat} {q : Place A} {obj : FutexObj T A}

attribute [simp] Place.ref Place.gap Place.waits

theorem processGetFutex_some [DecidableEq A] (hfound : s.processGetFutex a = some k) :
    k ∈ s.futexList ∧ (s.objs k).addr = a :=
  ⟨mem_of_find?_eq_some hfound, of_decide_eq_true (find?_some hfound :)⟩

theorem processGetFutex_none [DecidableEq A] (hnone : s.processGetFutex a = none) (k : Nat) (hk : k ∈ s.futexList) :
    (s.objs k).addr ≠ a := by
  have hnot := find?_eq_none.mp hnone k hk
  exact fun h => hnot (decide_eq_true h)

theorem not_dropped (hdropping : ¬ s.Dropping a) (haddr : (s.objs k).addr = a) (u : T) : s.pc u ≠ .dropped k := by
  intro hu
  exact hdropping ⟨u, k, by rw [hu]; rfl, haddr⟩

/-- A new object that no thread refers to yet. -/
def enter (s : Futexes T A) (a : A) : Futexes T A :=
  { s.setObj s.next ⟨a, 0, [], true⟩ with futexList := s.futexList ++ [s.next], next := s.next + 1 }

theorem enter_objs_next : (s.enter a).objs s.next = ⟨a, 0, [], true⟩ := update_self ..

theorem live_acquire (j : Nat) : ((s.acquire k).objs j).live = (s.objs j).live := by
  refine setObj_kept FutexObj.live s ?_ j
  rfl

section

variable [DecidableEq T]

theorem live_wakeOne (j : Nat) : ((s.wakeOne k t).objs j).live = (s.objs j).live := by
  refine setObj_kept FutexObj.live s ?_ j
  rfl

theorem foldl_wakeOne_kept (ts : List T) (s : Futexes T A) :
    (ts.foldl (Futexes.wakeOne k) s).futexList = s.futexList ∧
      (∀ j, ((ts.foldl (Futexes.wakeOne k) s).objs j).live = (s.objs j).live) ∧
      ∀ u ∉ ts, (ts.foldl (Futexes.wakeOne k) s).pc u = s.pc u := by
  induction ts generalizing s with
  | nil => exact ⟨rfl, fun _ => rfl, fun _ _ => rfl⟩
  | cons t ts ih =>
    obtain ⟨hlist, hlive, hpc⟩ := ih (s.wakeOne k t)
    refine ⟨hlist, fun j => (hlive j).trans (live_wakeOne j), fun u hu => ?_⟩
    have hut : u ≠ t := fun h => hu (mem_cons.mpr (.inl h))
    exact (hpc u fun h => hu (mem_cons_of_mem t h)).trans (update_of_ne hut ..)

theorem make_objs_of_mem (hobjects : Objects s) (hk : k ∈ s.futexList) : (s.make t a).objs k = s.objs k :=
  update_of_ne (hobjects.below k hk).ne ..

theorem make_objs_next : (s.make t a).objs s.next = ⟨a, 1, [], true⟩ := update_self ..

theorem mem_make : k ∈ (s.make t a).futexList ↔ k ∈ s.futexList ∨ k = s.next := by
  rw [← mem_singleton, ← mem_append]
  rfl

theorem Objects.make (hobjects : Objects s) (hnone : ∀ k ∈ s.futexList, (s.objs k).addr ≠ a) :
    Objects (s.make t a) := by
  refine ⟨?_, fun k hk j hj hsame => ?_, fun k hk => ?_, fun k => ?_⟩
  · show (s.futexList ++ [s.next]).Nodup
    rw [← concat_eq_append]
    exact hobjects.nodup.concat fun h => lt_irrefl _ (hobjects.below _ h)
  · obtain hk | rfl := mem_make.mp hk
    · obtain hj | rfl := mem_make.mp hj
      · rw [make_objs_of_mem hobjects hk, make_objs_of_mem hobjects hj] at hsame
        exact hobjects.unique k hk j hj hsame
      · rw [make_objs_of_mem hobjects hk, make_objs_next] at hsame
        exact absurd hsame (hnone k hk)
    · obtain hj | rfl := mem_make.mp hj
      · rw [make_objs_of_mem hobjects hj, make_objs_next] at hsame
        exact absurd hsame.symm (hnone j hj)
      · rfl
  · obtain hk | rfl := mem_make.mp hk
    · exact Nat.lt_succ_of_lt (hobjects.below k hk)
    · exact Nat.lt_succ_self _
  · rw [mem_make]
    by_cases hk : k = s.next
    · subst hk
      rw [make_objs_next]
      exact iff_of_true rfl (.inr rfl)
    · rw [show (s.make t a).objs k = s.objs k from update_of_ne hk .., or_iff_left hk]
      exact hobjects.live k

theorem make_eq : s.make t a =
    (((s.go t .idle).enter a).setObj s.next { ((s.go t .idle).enter a).objs s.next with refs := 1 }).go t
      (.holding a s.next) := by
  simp [Futexes.make, enter, Futexes.setObj, Futexes.go]

theorem mem_remove (hobjects : Objects s) {j : Nat} : j ∈ (s.remove t k).futexList ↔ j ∈ s.futexList ∧ j ≠ k := by
  show j ∈ s.futexList.erase k ↔ _
  rw [hobjects.nodup.mem_erase_iff, and_comm]

theorem remove_objs {j : Nat} (hj : j ≠ k) : (s.remove t k).objs j = s.objs j := update_of_ne hj ..

theorem Objects.remove (hobjects : Objects s) : Objects (s.remove t k) := by
  refine ⟨hobjects.nodup.erase k, fun j hj i hi hsame => ?_, fun j hj => ?_, fun j => ?_⟩
  · rw [mem_remove hobjects] at hj hi
    rw [remove_objs hj.2, remove_objs hi.2] at hsame
    exact hobjects.unique j hj.1 i hi.1 hsame
  · rw [mem_remove hobjects] at hj
    exact hobjects.below j hj.1
  · rw [mem_remove hobjects]
    by_cases hjk : j = k
    · subst hjk
      rw [show ((s.remove t j).objs j).live = false by
        show (update s.objs j { s.objs j with live := false } j).live = false
        rw [update_self]]
      exact iff_of_false Bool.noConfusion fun h => h.2 rfl
    · rw [remove_objs hjk, and_iff_left hjk]
      exact hobjects.live j

end

variable [Fintype T]

theorem Inv.sound (hinv : Inv s) : Sound s := by
  refine ⟨?_, fun t k ht => ?_, fun t a k ht => ?_⟩
  · refine hinv.objects.nodup.map_on fun k hk j hj hsame => ?_
    exact hinv.objects.unique k hk j hj hsame
  · exact (hinv.objects.live k).mpr (hinv.places.ref t k ht)
  · exact hinv.heard.passed t a (by rw [ht]; rfl)

theorem inv_start [Inhabited A] (word : A → Int) : Inv (start word : Futexes T A) := by
  have hidle (t : T) : (start word : Futexes T A).pc t = .idle := rfl
  refine ⟨⟨nodup_nil, fun _ hk => absurd hk not_mem_nil, fun _ hk => absurd hk not_mem_nil, fun k => ?_⟩,
    ⟨fun t k h => ?_, fun t a k h => ?_, fun t k h => ?_, fun t a h => ?_, fun _ hk => absurd hk not_mem_nil,
      fun _ hk => absurd hk not_mem_nil⟩,
    ⟨fun _ _ _ => rfl, fun u t a k max h => ?_⟩⟩
  · exact iff_of_false Bool.noConfusion not_mem_nil
  all_goals
    cases h

theorem Places.enter (hplaces : Places s) (hobjects : Objects s) (hnone : ∀ u, s.pc u ≠ .missing a) :
    Places (s.enter a) := by
  have hold {k : Nat} (hk : k ∈ s.futexList) : (s.enter a).objs k = s.objs k :=
    update_of_ne (hobjects.below k hk).ne ..
  have hfree (u : T) : (s.pc u).ref ≠ some s.next := fun hu => lt_irrefl _ (hobjects.below _ (hplaces.ref u _ hu))
  have hmem {k : Nat} (hk : k ∈ (s.enter a).futexList) : k ∈ s.futexList ∨ k = s.next :=
    (mem_append.mp hk).imp_right mem_singleton.mp
  refine ⟨fun u k hu => mem_append_left _ (hplaces.ref u k hu), fun u b k hu => ?_, fun u k hu => ?_,
    fun u b hu => ⟨fun k hk => ?_, (hplaces.missing u b hu).2⟩, fun k hk => ?_, fun k hk => ?_⟩
  · rw [hold (hplaces.ref u k (Place.ref_of_target hu))]
    exact hplaces.target u b k hu
  · obtain ⟨hk, hrest⟩ := hplaces.dropped u k hu
    rw [hold hk]
    exact ⟨mem_append_left _ hk, hrest⟩
  · obtain hk | rfl := hmem hk
    · rw [hold hk]
      exact (hplaces.missing u b hu).1 k hk
    · rw [enter_objs_next]
      rintro rfl
      exact hnone u hu
  · obtain hk | rfl := hmem hk
    · rw [hold hk]
      exact hplaces.counts k hk
    · have hzero : refCount s.pc s.next = 0 := by
        rw [refCount, Finset.card_eq_zero, Finset.filter_eq_empty_iff]
        exact fun u _ => hfree u
      rw [enter_objs_next, show (s.enter a).pc = s.pc from rfl, hzero]
      rfl
  · obtain hk | rfl := hmem hk
    · rw [hold hk]
      exact hplaces.sleepers k hk
    · rw [enter_objs_next]
      refine ⟨nodup_nil, fun u => iff_of_false not_mem_nil ?_⟩
      rintro ⟨b, hb⟩
      exact hfree u (by rw [show s.pc u = _ from hb]; rfl)

theorem Inv.store [DecidableEq A] (hinv : Inv s) (a : A) (v : Int) : Inv (s.store a v) :=
  ⟨hinv.objects.congr rfl rfl (fun _ => rfl) fun _ => rfl, { hinv.places with }, { hinv.heard with }⟩

theorem Inv.pass (hinv : Inv s) {owed : T → Bool} (howed : ∀ u b, (s.pc u).waits = some b → owed u = false) :
    Inv (s.pass owed) := by
  refine ⟨hinv.objects.congr rfl rfl (fun _ => rfl) fun _ => rfl, { hinv.places with },
    ⟨fun u b hu => ?_, hinv.heard.owed⟩⟩
  show (s.passed u || owed u) = false
  rw [hinv.heard.passed u b hu, howed u b hu]
  rfl

theorem Inv.owes [DecidableEq A] (hinv : Inv s)
    (hquiet : max = intMax → ∀ t, (s.pc t).gap = some a → s.changed t = false)
    (howes : s.owes a max t = true) : max = intMax ∧ ∃ k ∈ s.futexList, (s.objs k).addr = a ∧ s.pc t = .asleep a k := by
  obtain ⟨hboth, hchanged⟩ := Bool.and_eq_true_iff.mp howes
  obtain ⟨hmax, hwaits⟩ := of_decide_eq_true hboth
  refine ⟨hmax, ?_⟩
  obtain hgap | ⟨k, hk⟩ := Place.gap_or_asleep hwaits
  · rw [hquiet hmax t hgap] at hchanged
    cases hchanged
  · exact ⟨k, hinv.places.ref t k (by rw [hk]; rfl), hinv.places.target t a k (by rw [hk]; rfl), hk⟩

theorem Inv.findWaker_none [DecidableEq A] (hinv : Inv s) (hnone : s.processGetFutex a = none)
    (hquiet : max = intMax → ∀ t, (s.pc t).gap = some a → s.changed t = false) : Inv (s.pass (s.owes a max)) := by
  refine hinv.pass fun u b _ => ?_
  by_contra howes
  obtain ⟨-, k, hk, haddr, -⟩ := hinv.owes hquiet (Bool.of_not_eq_false howes)
  exact processGetFutex_none hnone k hk haddr

theorem Inv.processGetFutex_dropping [DecidableEq A] (hinv : Inv s) (hdropping : s.Dropping a) :
    ∃ u k, s.pc u = .dropped k ∧ (s.objs k).live = true ∧ s.processGetFutex a = some k := by
  obtain ⟨u, k, hu, haddr⟩ := hdropping
  have hpc : s.pc u = .dropped k := by
    cases hpc : s.pc u with
    | dropped j =>
      rw [hpc] at hu
      rw [some.inj hu]
    | _ =>
      rw [hpc] at hu
      cases hu
  have hk := (hinv.places.dropped u k hpc).1
  refine ⟨u, k, hpc, (hinv.objects.live k).mpr hk, ?_⟩
  cases hfound : s.processGetFutex a with
  | none => exact absurd haddr (processGetFutex_none hfound k hk)
  | some j =>
    obtain ⟨hj, hjaddr⟩ := processGetFutex_some hfound
    rw [hinv.objects.unique j hj k hk (hjaddr.trans haddr.symm)]

variable [DecidableEq T]

theorem Places.go (hplaces : Places s) (hpc : s.pc t = q) (hfits : s.Fits (fun k => (s.objs k).refs) t p)
    (href : p.ref = q.ref) (hold : ∀ a k, q ≠ .asleep a k) (hnew : ∀ a k, p ≠ .asleep a k) : Places (s.go t p) := by
  refine hplaces.move rfl rfl (fun _ => rfl) hfits (fun k _ => ?_) fun k hk => ?_
  · rw [hpc, href]
    rfl
  · obtain ⟨hnodup, hmem⟩ := hplaces.sleepers k hk
    refine ⟨hnodup, fun _ _ => Iff.rfl, (hmem t).trans ?_⟩
    simp [hpc, hold, hnew]

theorem Places.setObj (hplaces : Places s) (hpc : s.pc t = q) (hq : ∀ j, q.ref = some j → j = k)
    (hp : ∀ j, p.ref = some j → j = k) (haddr : obj.addr = (s.objs k).addr)
    (hfits : s.Fits (fun j => ((s.setObj k obj).objs j).refs) t p)
    (hcount : obj.refs + (if q.ref = some k then 1 else 0) = (s.objs k).refs + (if p.ref = some k then 1 else 0))
    (hnodup : obj.sleepers.Nodup) (hqueue : ∀ u ≠ t, u ∈ obj.sleepers ↔ u ∈ (s.objs k).sleepers)
    (hself : t ∈ obj.sleepers ↔ ∃ a, p = .asleep a k) : Places ((s.setObj k obj).go t p) := by
  have hsame : ((s.setObj k obj).go t p).objs k = obj := update_self ..
  have hother {j : Nat} (hj : j ≠ k) : ((s.setObj k obj).go t p).objs j = s.objs j := update_of_ne hj ..
  refine hplaces.move rfl rfl (setObj_kept FutexObj.addr s haddr) hfits (fun j _ => ?_) fun j hj => ?_
  · by_cases hjk : j = k
    · rw [hjk, hsame, hpc, hcount]
    · rw [hother hjk, hpc, if_neg (mt (hq j) hjk), if_neg (mt (hp j) hjk)]
  · by_cases hjk : j = k
    · rw [hjk, hsame]
      exact ⟨hnodup, hqueue, hself⟩
    · have hawake {r : Place A} (hr : ∀ j, r.ref = some j → j = k) : ¬ ∃ a, r = .asleep a j := by
        rintro ⟨a, rfl⟩
        exact hjk (hr j rfl)
      obtain ⟨hnodup, hmem⟩ := hplaces.sleepers j hj
      rw [hother hjk]
      refine ⟨hnodup, fun _ _ => Iff.rfl, ?_⟩
      rw [hmem, hpc]
      exact iff_of_false (hawake hq) (hawake hp)

theorem Places.setRefs {r : Int} (hplaces : Places s) (hpc : s.pc t = q) (hk : k ∈ s.futexList)
    (hq : ∀ j, q.ref = some j → j = k) (hp : ∀ j, p.ref = some j → j = k) (hold : ∀ a j, q ≠ .asleep a j)
    (hnew : ∀ a j, p ≠ .asleep a j) (hfits : s.Fits (update (fun j => (s.objs j).refs) k r) t p)
    (hcount : r + (if q.ref = some k then 1 else 0) = (s.objs k).refs + (if p.ref = some k then 1 else 0)) :
    Places ((s.setObj k { s.objs k with refs := r }).go t p) := by
  obtain ⟨hnodup, hmem⟩ := hplaces.sleepers k hk
  have hrefs : (fun j => ((s.setObj k { s.objs k with refs := r }).objs j).refs) =
      update (fun j => (s.objs j).refs) k r := comp_update FutexObj.refs s.objs k _
  refine hplaces.setObj hpc hq hp rfl (hrefs ▸ hfits) hcount hnodup (fun _ _ => Iff.rfl) ((hmem t).trans ?_)
  simp [hpc, hold, hnew]

theorem Inv.setObj (hinv : Inv s) (hpc : s.pc t = q) (haddr : obj.addr = (s.objs k).addr)
    (hlive : obj.live = (s.objs k).live) (hplaces : Places ((s.setObj k obj).go t p))
    (hwaits : ∀ a, p.waits = some a → q.gap = some a) (hwaking : ∀ a j max, p ≠ .waking a j max) :
    Inv ((s.setObj k obj).go t p) :=
  ⟨hinv.objects.congr rfl rfl (setObj_kept FutexObj.addr s haddr) (setObj_kept FutexObj.live s hlive), hplaces,
    hinv.heard.move rfl rfl rfl (hpc ▸ hwaits) hwaking⟩

theorem Inv.go (hinv : Inv s) (hpc : s.pc t = q) (hfits : s.Fits (fun k => (s.objs k).refs) t p)
    (href : p.ref = q.ref) (hold : ∀ a k, q ≠ .asleep a k) (hnew : ∀ a k, p ≠ .asleep a k)
    (hwaits : ∀ a, p.waits = some a → q.gap = some a) (hwaking : ∀ a j max, p ≠ .waking a j max) : Inv (s.go t p) :=
  ⟨hinv.objects.congr rfl rfl (fun _ => rfl) fun _ => rfl, hinv.places.go hpc hfits href hold hnew,
    hinv.heard.move rfl rfl rfl (hpc ▸ hwaits) hwaking⟩

theorem Inv.begin (hinv : Inv s) (hidle : s.pc t = .idle) (a : A) (val : Int) : Inv (s.begin t a val) := by
  have hplaces : Places (s.go t (.checked a)) := hinv.places.go hidle trivial rfl (by simp) (by simp)
  have howed {u v : T} (h : (s.begin t a val).owed u v = true) : v ≠ t ∧ s.owed u v = true := by
    change update (s.owed u) t false v = true at h
    by_cases hv : v = t
    · rw [hv, update_self] at h
      cases h
    · rw [update_of_ne hv] at h
      exact ⟨hv, h⟩
  exact ⟨hinv.objects.congr rfl rfl (fun _ => rfl) fun _ => rfl, { hplaces with },
    hinv.heard.change rfl (fun u hu => update_of_ne hu ..) (fun _ _ => update_self ..) (fun u _ v hv => (howed hv).2)
      (fun u b hu => absurd rfl (howed hu).1) (by simp)⟩

theorem Inv.find_none [DecidableEq A] (hinv : Inv s) (hpc : s.pc t = .checked a) (hnone : s.processGetFutex a = none)
    (hfirst : ∀ u, s.pc u ≠ .missing a) : Inv (s.go t (.missing a)) :=
  hinv.go hpc ⟨processGetFutex_none hnone, fun u _ => hfirst u⟩ rfl (by simp) (by simp) (by simp) (by simp)

theorem Inv.find_some [DecidableEq A] (hinv : Inv s) (hpc : s.pc t = .checked a) (hfound : s.processGetFutex a = some k)
    (hdropping : ¬ s.Dropping a) : Inv ((s.acquire k).go t (.holding a k)) := by
  obtain ⟨hk, haddr⟩ := processGetFutex_some hfound
  refine hinv.setObj hpc rfl rfl ?_ (by simp) (by simp)
  exact hinv.places.setRefs hpc hk (by simp) (by simp) (by simp) (by simp)
    ⟨⟨hk, .inr (not_dropped hdropping haddr)⟩, haddr⟩ (by simp)

theorem Inv.enqueue (hinv : Inv s) (hpc : s.pc t = .holding a k) : Inv (s.enqueue t a k) := by
  have href : (s.pc t).ref = some k := by rw [hpc]; rfl
  have hk : k ∈ s.futexList := hinv.places.ref t k href
  have haddr : (s.objs k).addr = a := hinv.places.target t a k (by rw [hpc]; rfl)
  obtain ⟨hnodup, hmem⟩ := hinv.places.sleepers k hk
  have hawake : t ∉ (s.objs k).sleepers := by simp [hmem, hpc]
  refine hinv.setObj hpc rfl rfl (hinv.places.setObj hpc (by simp) (by simp) rfl ⟨⟨hk, .inl href⟩, haddr⟩ rfl ?_
    (fun u hu => ?_) (by simp)) (by simp) (by simp)
  · rw [← concat_eq_append]
    exact hnodup.concat hawake
  · rw [mem_append, mem_singleton, or_iff_left hu]

theorem Inv.wakeOne (hinv : Inv s) (hpc : s.pc t = .asleep a k) : Inv (s.wakeOne k t) := by
  have href : (s.pc t).ref = some k := by rw [hpc]; rfl
  have hk : k ∈ s.futexList := hinv.places.ref t k href
  obtain ⟨hnodup, hmem⟩ := hinv.places.sleepers k hk
  exact hinv.setObj hpc rfl rfl (hinv.places.setObj hpc (by simp) (by simp) rfl ⟨hk, .inl href⟩ rfl (hnodup.erase t)
    (fun u hu => mem_erase_of_ne hu) (by simp [hnodup.not_mem_erase])) (by simp) (by simp)

theorem Inv.drop (hinv : Inv s) (hpc : s.pc t = .leaving k) : Inv (s.drop t k) := by
  have href : (s.pc t).ref = some k := by rw [hpc]; rfl
  have hk : k ∈ s.futexList := hinv.places.ref t k href
  have hcount := hinv.places.counts k hk
  have hpos : 0 < refCount s.pc k := refCount_pos href
  rw [Futexes.drop]
  split_ifs with hzero
  · have hplaces := hinv.places.setRefs (r := (s.objs k).refs - 1) (p := .dropped k) hpc hk (by simp) (by simp)
      (by simp) (by simp) ⟨hk, ?_, fun u _ hu => ?_⟩ (by simp)
    · exact hinv.setObj hpc rfl rfl hplaces (by simp) (by simp)
    · rw [update_self]
      omega
    · have hdead := (hinv.places.dropped u k hu).2.1
      omega
  · have hplaces := hinv.places.setRefs (r := (s.objs k).refs - 1) (p := .idle) hpc hk (by simp) (by simp)
      (by simp) (by simp) trivial (by simp)
    exact hinv.setObj hpc rfl rfl hplaces (by simp) (by simp)

theorem Places.make (hplaces : Places s) (hobjects : Objects s) (hpc : s.pc t = .missing a) : Places (s.make t a) := by
  have hleft : Places (s.go t .idle) := hplaces.go hpc trivial rfl (by simp) (by simp)
  have hentered : Places ((s.go t .idle).enter a) := hleft.enter { hobjects with } fun u hu => by
    by_cases hut : u = t
    · rw [hut, show (s.go t .idle).pc t = .idle from update_self ..] at hu
      cases hu
    · exact hut ((hplaces.missing t a hpc).2 u ((update_of_ne hut ..).symm.trans hu))
  have hnext : s.next ∈ s.futexList ++ [s.next] := mem_append_right _ (mem_singleton.mpr rfl)
  have hnew : ((s.go t .idle).enter a).objs s.next = ⟨a, 0, [], true⟩ := enter_objs_next
  rw [make_eq]
  refine hentered.setRefs (update_self ..) hnext (by simp) (by simp) (by simp) (by simp)
    ⟨⟨hnext, .inr fun u hu => ?_⟩, by rw [hnew]⟩ (by simp [hnew])
  exact lt_irrefl _ (hobjects.below _ (hleft.dropped u _ hu).1)

theorem Inv.make (hinv : Inv s) (hpc : s.pc t = .missing a) : Inv (s.make t a) := by
  refine ⟨hinv.objects.make (hinv.places.missing t a hpc).1, hinv.places.make hinv.objects hpc,
    hinv.heard.move rfl rfl rfl (fun b hb => ?_) fun b j m h => ?_⟩
  · rw [hpc]
    exact hb
  · cases h

theorem Places.remove (hplaces : Places s) (hobjects : Objects s) (hpc : s.pc t = .dropped k) :
    Places (s.remove t k) := by
  obtain ⟨hk, hzero, hone⟩ := hplaces.dropped t k hpc
  have hleft : Places (s.go t .idle) := hplaces.go hpc trivial rfl (by simp) (by simp)
  have hself : (s.go t .idle).pc t = .idle := update_self ..
  have hother {u : T} (hu : u ≠ t) : (s.go t .idle).pc u = s.pc u := update_of_ne hu ..
  have hne {u : T} {j : Nat} (hu : ((s.go t .idle).pc u).ref = some j) : j ≠ k := by
    rintro rfl
    have hcount : (s.objs j).refs = refCount (s.go t .idle).pc j := hleft.counts j hk
    have hpos := refCount_pos hu
    omega
  refine ⟨fun u j hu => ?_, fun u b j hu => ?_, fun u j hu => ?_, fun u b hu => ?_, fun j hj => ?_, fun j hj => ?_⟩
  · exact (mem_remove hobjects).mpr ⟨hleft.ref u j hu, hne hu⟩
  · rw [remove_objs (hne (Place.ref_of_target hu))]
    exact hleft.target u b j hu
  · obtain ⟨hj, hnone, huniq⟩ := hleft.dropped u j hu
    have hjk : j ≠ k := by
      rintro rfl
      by_cases hut : u = t
      · rw [hut] at hu
        cases hself.symm.trans hu
      · exact hut (hone u ((hother hut).symm.trans hu))
    exact ⟨(mem_remove hobjects).mpr ⟨hj, hjk⟩, by rw [remove_objs hjk]; exact hnone, huniq⟩
  · obtain ⟨hnone, huniq⟩ := hleft.missing u b hu
    refine ⟨fun j hj => ?_, huniq⟩
    rw [mem_remove hobjects] at hj
    rw [remove_objs hj.2]
    exact hnone j hj.1
  · rw [mem_remove hobjects] at hj
    rw [remove_objs hj.2]
    exact hleft.counts j hj.1
  · rw [mem_remove hobjects] at hj
    rw [remove_objs hj.2]
    exact hleft.sleepers j hj.1

theorem Inv.remove (hinv : Inv s) (hpc : s.pc t = .dropped k) : Inv (s.remove t k) := by
  refine ⟨hinv.objects.remove, hinv.places.remove hinv.objects hpc,
    hinv.heard.move rfl rfl rfl (fun b hb => ?_) fun b j m h => ?_⟩
  · cases hb
  · cases h

section

variable (hinv : Inv s)
include hinv

theorem Inv.wakeAll {ts : List T} (hnodup : ts.Nodup) (hts : ∀ t ∈ ts, ∃ a, s.pc t = .asleep a k) :
    Inv (ts.foldl (Futexes.wakeOne k) s) ∧ (∀ u ∉ ts, (ts.foldl (Futexes.wakeOne k) s).pc u = s.pc u) ∧
      ∀ u ∈ ts, (ts.foldl (Futexes.wakeOne k) s).pc u = .leaving k := by
  induction ts generalizing s with
  | nil => exact ⟨hinv, fun _ _ => rfl, fun u hu => by cases hu⟩
  | cons t ts ih =>
    obtain ⟨hout, hnodup⟩ := nodup_cons.mp hnodup
    have hpc (u : T) (hu : u ≠ t) : (s.wakeOne k t).pc u = s.pc u := update_of_ne hu ..
    obtain ⟨a, ha⟩ := hts t mem_cons_self
    obtain ⟨hinv', hkept, hwoken⟩ := ih (hinv.wakeOne ha) hnodup fun u hu => by
      rw [hpc u fun h => hout (h ▸ hu)]
      exact hts u (mem_cons_of_mem t hu)
    refine ⟨hinv', fun u hu => ?_, fun u hu => ?_⟩
    · have hut : u ≠ t := fun h => hu (mem_cons.mpr (.inl h))
      exact (hkept u fun h => hu (mem_cons_of_mem t h)).trans (hpc u hut)
    · obtain rfl | hmem := mem_cons.mp hu
      · exact (hkept u hout).trans (update_self ..)
      · exact hwoken u hmem

theorem Inv.wake (hcard : Fintype.card T ≤ intMax) (hpc : s.pc t = .waking a k max) :
    Inv (((((s.objs k).sleepers.take max).foldl (Futexes.wakeOne k) s).go t (.leaving k)).pass (s.owed t)) := by
  have hk : k ∈ s.futexList := hinv.places.ref t k (by rw [hpc]; rfl)
  obtain ⟨hnodup, hmem⟩ := hinv.places.sleepers k hk
  obtain ⟨hinv₁, hkept, hwoken⟩ := hinv.wakeAll (hnodup.sublist (take_sublist max _))
    fun u hu => (hmem u).mp (mem_of_mem_take hu)
  have hout : t ∉ (s.objs k).sleepers.take max := by
    intro ht
    obtain ⟨b, hb⟩ := (hmem t).mp (mem_of_mem_take ht)
    rw [hpc] at hb
    cases hb
  obtain ⟨s₁, hs₁⟩ : ∃ s₁, s₁ = ((s.objs k).sleepers.take max).foldl (Futexes.wakeOne k) s := ⟨_, rfl⟩
  rw [← hs₁] at hinv₁ hkept hwoken ⊢
  have hpc₁ : s₁.pc t = .waking a k max := (hkept t hout).trans hpc
  have href₁ : (s₁.pc t).ref = some k := by rw [hpc₁]; rfl
  have hinv₂ : Inv (s₁.go t (.leaving k)) :=
    hinv₁.go hpc₁ ⟨hinv₁.places.ref t k href₁, .inl href₁⟩ rfl (by simp) (by simp) (by simp) (by simp)
  refine hinv₂.pass fun u b hu => ?_
  by_contra howed
  -- The thread was asleep on the object, so it is one of those that were woken.
  obtain ⟨hmax, hasleep⟩ := hinv.heard.owed t u a k max hpc (Bool.of_not_eq_false howed)
  have hut : u ≠ t := by
    rintro rfl
    rw [show (s₁.go u (.leaving k)).pc u = .leaving k from update_self ..] at hu
    cases hu
  rw [show (s₁.go t (.leaving k)).pc u = s₁.pc u from update_of_ne hut ..] at hu
  by_cases hin : u ∈ (s.objs k).sleepers.take max
  · rw [hwoken u hin] at hu
    cases hu
  · rw [hkept u hin] at hu
    have hlength : (s.objs k).sleepers.length ≤ max := hmax ▸ hnodup.length_le_card.trans hcard
    rw [take_of_length_le hlength] at hin
    exact hin ((hmem u).mpr ⟨a, hasleep b hu⟩)

theorem Inv.beginWake [DecidableEq A] (hpc : s.pc t = .idle) (hfound : s.processGetFutex a = some k)
    (hdropping : ¬ s.Dropping a) (hquiet : max = intMax → ∀ t, (s.pc t).gap = some a → s.changed t = false) :
    Inv (s.beginWake t a k max) := by
  obtain ⟨hk, haddr⟩ := processGetFutex_some hfound
  have hplaces : Places ((s.acquire k).go t (.waking a k max)) :=
    hinv.places.setRefs hpc hk (by simp) (by simp) (by simp) (by simp)
      ⟨⟨hk, .inr (not_dropped hdropping haddr)⟩, haddr⟩ (by simp)
  refine ⟨hinv.objects.congr rfl rfl (setObj_kept FutexObj.addr s rfl) (setObj_kept FutexObj.live s rfl),
    { hplaces with }, hinv.heard.change rfl (fun _ _ => rfl) (by simp) (fun u hu v hv => ?_) (by simp)
      fun v b j m hp hv => ?_⟩
  · exact (congrFun (update_of_ne hu ..) v).symm.trans hv
  · obtain ⟨rfl, rfl, rfl⟩ := Place.waking.inj hp
    obtain ⟨hmax, i, hi, hiaddr, hasleep⟩ := hinv.owes hquiet ((congrFun (update_self ..) v).symm.trans hv)
    obtain rfl := hinv.objects.unique i hi k hk (hiaddr.trans haddr.symm)
    have hvt : v ≠ t := ne_of_apply_ne s.pc (by simp [hasleep, hpc])
    exact ⟨hmax, (update_of_ne hvt ..).trans hasleep⟩

theorem Inv.step [DecidableEq A] (hcard : Fintype.card T ≤ intMax) (hguard : Undisturbed s op)
    (hstep : s.step op = some s') : Inv s' := by
  cases op
  all_goals rw [Futexes.step] at hstep
  case store a v => exact some.inj hstep ▸ hinv.store a v
  case read t a val =>
    split_ifs at hstep with hpc hval
    · exact some.inj hstep ▸ hinv.begin hpc a val
    · exact some.inj hstep ▸ hinv
  case find t =>
    split at hstep
    · rename_i a hpc
      obtain ⟨hfirst, hdropping⟩ := hguard a (by rw [hpc]; rfl)
      split at hstep
      · rename_i hnone
        exact some.inj hstep ▸ hinv.find_none hpc hnone hfirst
      · rename_i k hfound
        exact some.inj hstep ▸ hinv.find_some hpc hfound hdropping
    · cases hstep
  case create t =>
    split at hstep
    · rename_i a hpc
      exact some.inj hstep ▸ hinv.make hpc
    · cases hstep
  case sleep t =>
    split at hstep
    · rename_i a k hpc
      split_ifs at hstep
      exact some.inj hstep ▸ hinv.enqueue hpc
    · cases hstep
  case interrupt t =>
    split at hstep
    · rename_i a k hpc
      split_ifs at hstep
      exact some.inj hstep ▸ hinv.wakeOne hpc
    · cases hstep
  case findWaker t a max =>
    split_ifs at hstep with hpc
    split at hstep
    · rename_i hnone
      exact some.inj hstep ▸ hinv.findWaker_none hnone hguard.2
    · rename_i k hfound
      exact some.inj hstep ▸ hinv.beginWake hpc hfound hguard.1 hguard.2
  case wake t =>
    split at hstep
    · rename_i a k max hpc
      split_ifs at hstep
      exact some.inj hstep ▸ hinv.wake hcard hpc
    · cases hstep
  case release t =>
    split at hstep
    · rename_i k hpc
      split_ifs at hstep
      exact some.inj hstep ▸ hinv.drop hpc
    · cases hstep
  case free t =>
    split at hstep
    · rename_i k hpc
      split_ifs at hstep
      exact some.inj hstep ▸ hinv.remove hpc
    · cases hstep

end

end Steps

section Gaps

variable [DecidableEq T] [DecidableEq A] {s s' : Futexes T A} {t u : T} {a : A} {k : Nat}

theorem Doomed.of_step (hstep : s.step op = some s') (hdoomed : Doomed s') : Doomed s := by
  obtain ⟨ops, s'', hrun, hnot⟩ := hdoomed
  exact ⟨op :: ops, s'', .cons trivial hstep hrun, hnot⟩

theorem doomed_of_unsound (hnot : ¬ Sound s) : Doomed s := ⟨[], s, .nil s, hnot⟩

theorem doomed_of_found (hpc : s.pc u = .dropped k) (hlive : (s.objs k).live = true) (href : (s.pc t).ref = some k) :
    Doomed s := by
  have hne : t ≠ u := by
    rintro rfl
    rw [hpc] at href
    cases href
  have hstep : s.step (.free u) = some (s.remove u k) := by
    rw [Futexes.step, hpc]
    exact if_pos hlive
  refine .of_step hstep (doomed_of_unsound fun hsound => ?_)
  have hpc' : (s.remove u k).pc t = s.pc t := update_of_ne hne ..
  have hdead : ((s.remove u k).objs k).live = false := by
    show (update s.objs k { s.objs k with live := false } k).live = false
    rw [update_self]
  rw [hsound.live t k (by rw [hpc', href])] at hdead
  cases hdead

theorem doomed_of_missing (hpc : s.pc t = .missing a) (hpc' : s.pc u = .missing a) (hne : t ≠ u) : Doomed s := by
  have hfirst : s.step (.create t) = some (s.make t a) := by rw [Futexes.step, hpc]
  have hthere : (s.make t a).pc u = .missing a := (update_of_ne hne.symm ..).trans hpc'
  have hsecond : (s.make t a).step (.create u) = some ((s.make t a).make u a) := by rw [Futexes.step, hthere]
  refine .of_step hfirst (.of_step hsecond (doomed_of_unsound fun hsound => ?_))
  have hnodup := hsound.unique
  have hlist : ((s.make t a).make u a).futexList = s.futexList ++ [s.next, s.next + 1] := by
    show s.futexList ++ [s.next] ++ [s.next + 1] = _
    rw [append_assoc]
    rfl
  have hlast : (((s.make t a).make u a).objs (s.next + 1)).addr = a := by
    rw [show ((s.make t a).make u a).objs (s.next + 1) = _ from make_objs_next]
  have hbefore : (((s.make t a).make u a).objs s.next).addr = a := by
    rw [show ((s.make t a).make u a).objs s.next = (s.make t a).objs s.next from
      update_of_ne (Nat.lt_succ_self s.next).ne .., make_objs_next]
  rw [hlist, map_append] at hnodup
  have htwo := (nodup_append.mp hnodup).2.1
  rw [map_cons, map_cons, hbefore, hlast] at htwo
  exact (nodup_cons.mp htwo).1 mem_cons_self

theorem doomed_of_holding (hpc : s.pc t = .holding a k) (hlive : (s.objs k).live = true) (hpassed : s.passed t = true) :
    Doomed s := by
  have hstep : s.step (.sleep t) = some (s.enqueue t a k) := by
    rw [Futexes.step, hpc]
    exact if_pos hlive
  refine .of_step hstep (doomed_of_unsound fun hsound => ?_)
  have hheard : s.passed t = false := hsound.heard t a k (update_self ..)
  rw [hpassed] at hheard
  cases hheard

theorem doomed_of_gap (hlive : ∀ k ∈ s.futexList, (s.objs k).live = true)
    (hheld : ∀ k, (s.pc t).ref = some k → (s.objs k).live = true) (hgap : (s.pc t).gap = some a)
    (hpassed : s.passed t = true) : Doomed s := by
  have hmissing {s : Futexes T A} (hpc : s.pc t = .missing a) (hpassed : s.passed t = true) : Doomed s := by
    have hcreate : s.step (.create t) = some (s.make t a) := by rw [Futexes.step, hpc]
    have hthere : (s.make t a).pc t = .holding a s.next := update_self ..
    exact .of_step hcreate (doomed_of_holding hthere (by rw [make_objs_next]) hpassed)
  cases hpc : s.pc t with
  | checked b =>
    obtain rfl : b = a := by
      rw [hpc] at hgap
      exact some.inj hgap
    cases hfound : s.processGetFutex b with
    | none =>
      have hfind : s.step (.find t) = some (s.go t (.missing b)) := by
        rw [Futexes.step, hpc]
        dsimp only
        rw [hfound]
      have hthere : (s.go t (.missing b)).pc t = .missing b := update_self ..
      exact .of_step hfind (hmissing hthere hpassed)
    | some k =>
      have hfind : s.step (.find t) = some ((s.acquire k).go t (.holding b k)) := by
        rw [Futexes.step, hpc]
        dsimp only
        rw [hfound]
      have hthere : ((s.acquire k).go t (.holding b k)).pc t = .holding b k := update_self ..
      refine .of_step hfind (doomed_of_holding hthere ?_ hpassed)
      exact (live_acquire k).trans (hlive k (processGetFutex_some hfound).1)
  | missing b =>
    obtain rfl : b = a := by
      rw [hpc] at hgap
      exact some.inj hgap
    exact hmissing hpc hpassed
  | holding b k => exact doomed_of_holding hpc (hheld k (by rw [hpc]; rfl)) hpassed
  | _ =>
    rw [hpc] at hgap
    cases hgap

theorem doomed_of_waking {v : T} (hpc : s.pc t = .waking a k max) (hk : (s.objs k).live = true)
    (hlive : ∀ k ∈ s.futexList, (s.objs k).live = true) (hheld : ∀ k, (s.pc v).ref = some k → (s.objs k).live = true)
    (hgap : (s.pc v).gap = some a) (hawake : v ∉ (s.objs k).sleepers) (howed : s.owed t v = true) : Doomed s := by
  obtain ⟨ts, hts⟩ : ∃ ts, ts = (s.objs k).sleepers.take max := ⟨_, rfl⟩
  have hstep : s.step (.wake t) = some (((ts.foldl (Futexes.wakeOne k) s).go t (.leaving k)).pass (s.owed t)) := by
    rw [Futexes.step, hpc, hts]
    exact if_pos hk
  obtain ⟨hlist, hkept, hpc'⟩ := foldl_wakeOne_kept (k := k) ts s
  have hout : v ∉ ts := fun h => hawake (mem_of_mem_take (hts ▸ h))
  have hne : v ≠ t := by
    rintro rfl
    rw [hpc] at hgap
    cases hgap
  have hthere : (((ts.foldl (Futexes.wakeOne k) s).go t (.leaving k)).pass (s.owed t)).pc v = s.pc v :=
    (update_of_ne hne ..).trans (hpc' v hout)
  refine .of_step hstep (doomed_of_gap (t := v) (a := a) (fun j hj => ?_) (fun j hj => ?_) ?_ ?_)
  · exact (hkept j).trans (hlive j (hlist ▸ hj))
  · rw [hthere] at hj
    exact (hkept j).trans (hheld j hj)
  · rw [hthere, hgap]
  · show (_ || s.owed t v) = true
    rw [howed, Bool.or_true]

theorem Inv.find_disturbed [Fintype T] (hinv : Inv s) (hpc : s.pc t = .checked a)
    (hdisturbed : ¬ ((∀ u, s.pc u ≠ .missing a) ∧ ¬ s.Dropping a)) (hstep : s.step (.find t) = some s') :
    Doomed s' := by
  rw [Futexes.step, hpc] at hstep
  dsimp only at hstep
  by_cases hdropping : s.Dropping a
  · obtain ⟨u, k, hu, hlive, hfound⟩ := hinv.processGetFutex_dropping hdropping
    rw [hfound] at hstep
    cases hstep
    have hne : u ≠ t := ne_of_apply_ne s.pc (by simp [hu, hpc])
    have hthere : ((s.acquire k).go t (.holding a k)).pc t = .holding a k := update_self ..
    exact doomed_of_found ((update_of_ne hne ..).trans hu) ((live_acquire k).trans hlive)
      (by rw [hthere]; rfl)
  · have hmissing : ∃ u, s.pc u = .missing a := by
      by_contra hnone
      exact hdisturbed ⟨fun u hu => hnone ⟨u, hu⟩, hdropping⟩
    obtain ⟨u, hu⟩ := hmissing
    have hnone : s.processGetFutex a = none := by
      cases hfound : s.processGetFutex a with
      | none => rfl
      | some k =>
        obtain ⟨hk, haddr⟩ := processGetFutex_some hfound
        exact absurd haddr ((hinv.places.missing u a hu).1 k hk)
    rw [hnone] at hstep
    cases hstep
    have hne : u ≠ t := ne_of_apply_ne s.pc (by simp [hu, hpc])
    exact doomed_of_missing ((update_of_ne hne ..).trans hu) (update_self ..) hne

theorem Inv.findWaker_disturbed [Fintype T] (hinv : Inv s)
    (hdisturbed : ¬ (¬ s.Dropping a ∧ (max = intMax → ∀ t, (s.pc t).gap = some a → s.changed t = false)))
    (hstep : s.step (.findWaker t a max) = some s') : Doomed s' := by
  rw [Futexes.step] at hstep
  split_ifs at hstep with hpc
  by_cases hdropping : s.Dropping a
  · obtain ⟨u, k, hu, hlive, hfound⟩ := hinv.processGetFutex_dropping hdropping
    rw [hfound] at hstep
    cases hstep
    have hne : u ≠ t := ne_of_apply_ne s.pc (by simp [hu, hpc])
    have hthere : (s.beginWake t a k max).pc t = .waking a k max := update_self ..
    exact doomed_of_found ((update_of_ne hne ..).trans hu) ((live_acquire k).trans hlive)
      (by rw [hthere]; rfl)
  · have hlate : max = intMax ∧ ∃ v, (s.pc v).gap = some a ∧ s.changed v = true := by
      by_contra hnone
      refine hdisturbed ⟨hdropping, fun hmax v hv => ?_⟩
      by_contra hchanged
      exact hnone ⟨hmax, v, hv, Bool.of_not_eq_false hchanged⟩
    obtain ⟨rfl, v, hv, hchanged⟩ := hlate
    have howes : s.owes a intMax v = true := by
      rw [Futexes.owes, hchanged, Bool.and_true]
      exact decide_eq_true ⟨rfl, (Place.waits_of_gap hv).1⟩
    have hlive (k : Nat) (hk : k ∈ s.futexList) : (s.objs k).live = true := (hinv.objects.live k).mpr hk
    have hheld (k : Nat) (hk : (s.pc v).ref = some k) : (s.objs k).live = true := hlive k (hinv.places.ref v k hk)
    cases hfound : s.processGetFutex a with
    | none =>
      rw [hfound] at hstep
      cases hstep
      refine doomed_of_gap hlive hheld hv ?_
      show (s.passed v || s.owes a intMax v) = true
      rw [howes, Bool.or_true]
    | some k =>
      rw [hfound] at hstep
      cases hstep
      have hk := (processGetFutex_some hfound).1
      have hne : v ≠ t := by
        rintro rfl
        rw [hpc] at hv
        cases hv
      have hthere : (s.beginWake t a k intMax).pc v = s.pc v := update_of_ne hne ..
      have hqueue : ((s.beginWake t a k intMax).objs k).sleepers = (s.objs k).sleepers := by
        refine setObj_kept FutexObj.sleepers s ?_ k
        rfl
      have hawake : v ∉ (s.objs k).sleepers := by
        rw [(hinv.places.sleepers k hk).2]
        rintro ⟨b, hb⟩
        exact (Place.waits_of_gap hv).2 b k hb
      refine doomed_of_waking (v := v) (update_self ..)
        ((live_acquire k).trans (hlive k hk)) (fun j hj => (live_acquire j).trans (hlive j hj)) (fun j hj => ?_)
        ?_ ?_ ?_
      · exact (live_acquire j).trans (hheld j (hthere ▸ hj))
      · rw [hthere, hv]
      · rw [hqueue]
        exact hawake
      · show update s.owed t (s.owes a intMax) t v = true
        rw [update_self, howes]

theorem Inv.disturbed [Fintype T] (hinv : Inv s) (hdisturbed : ¬ Undisturbed s op)
    (hstep : s.step op = some s') : Doomed s' := by
  cases op with
  | find t =>
    obtain ⟨a, hnot⟩ := Classical.not_forall.mp hdisturbed
    obtain ⟨hlookup, hnot⟩ := Classical.not_imp.mp hnot
    have hpc : s.pc t = .checked a := by
      cases hpc : s.pc t with
      | checked b =>
        rw [hpc] at hlookup
        rw [some.inj hlookup]
      | _ =>
        rw [hpc] at hlookup
        cases hlookup
    exact hinv.find_disturbed hpc hnot hstep
  | findWaker t a max => exact hinv.findWaker_disturbed hdisturbed hstep
  | _ => exact absurd trivial hdisturbed

end Gaps

/-- As long as no lookup falls into one of the gaps, an address has one object, no object in use is freed, and no
wake-up is missed; and a step that falls into one can break this. -/
theorem futex_wakeups [DecidableEq T] [DecidableEq A] [Fintype T] [Inhabited A] (hcard : Fintype.card T ≤ intMax)
    {word : A → Int} {ops : List (FutexOp T A)} {s : Futexes T A} (hrun : Run step Undisturbed (start word) ops s) :
    Sound s ∧ ∀ op s', s.step op = some s' → ¬ Undisturbed s op → Doomed s' := by
  have hinv : Inv s :=
    hrun.invariant Inv (fun _ _ _ hinv hguard hstep => hinv.step hcard hguard hstep) (inv_start word)
  exact ⟨hinv.sound, fun op s' hstep hdisturbed => hinv.disturbed hdisturbed hstep⟩

/-- A thread waits, another one stores a value and wakes it, and the object is freed. -/
theorem futex_wakeups_pair :
    ∃ s : Futexes (Fin 2) Unit,
      Run step Undisturbed (start fun _ => 0)
        [.read 0 () 0, .find 0, .create 0, .sleep 0, .store () 1, .findWaker 1 () intMax, .wake 1, .release 0,
          .release 1, .free 1] s ∧
      (s.pc 0 = .idle ∧ s.futexList = []) ∧ Sound s := by
  refine exists_run_of_replay_imp (fun s => s.pc 0 = .idle ∧ s.futexList = []) ?_ fun s hrun hend =>
    ⟨hend, (futex_wakeups (by decide) hrun).1⟩
  rfl

/-- Two objects of one address are made, an object is freed after it was found, and a thread goes to sleep after its
wake-up. -/
theorem futex_gaps :
    (∃ s : Futexes (Fin 2) Unit, Run step (fun _ _ => True) (start fun _ => 0)
        [.read 0 () 0, .read 1 () 0, .find 0, .find 1, .create 0, .create 1] s ∧
      s.futexList.map (fun k => (s.objs k).addr) = [(), ()] ∧ ¬ Sound s) ∧
    (∃ s : Futexes (Fin 2) Unit, Run step (fun _ _ => True) (start fun _ => 0)
        [.read 0 () 0, .find 0, .create 0, .sleep 0, .interrupt 0, .release 0, .read 1 () 0, .find 1, .free 0] s ∧
      (s.pc 1 = .holding () 0 ∧ (s.objs 0).live = false) ∧ ¬ Sound s) ∧
    (∃ s : Futexes (Fin 2) Unit, Run step (fun _ _ => True) (start fun _ => 0)
        [.read 0 () 0, .store () 1, .findWaker 1 () intMax, .find 0, .create 0, .sleep 0] s ∧
      (s.pc 0 = .asleep () 0 ∧ s.passed 0 = true) ∧ ¬ Sound s) := by
  refine ⟨?_, ?_, ?_⟩
  · refine exists_run_of_replay_imp (fun s => s.futexList.map (fun k => (s.objs k).addr) = [(), ()]) (by decide)
      fun s _ hlist => ⟨hlist, fun hsound => ?_⟩
    have hnodup := hsound.unique
    rw [hlist] at hnodup
    exact absurd hnodup (by decide)
  · refine exists_run_of_replay_imp (fun s => s.pc 1 = .holding () 0 ∧ (s.objs 0).live = false) (by decide)
      fun s _ ⟨hpc, hlive⟩ => ⟨⟨hpc, hlive⟩, fun hsound => ?_⟩
    rw [hsound.live 1 0 (by rw [hpc]; rfl)] at hlive
    cases hlive
  · refine exists_run_of_replay_imp (fun s => s.pc 0 = .asleep () 0 ∧ s.passed 0 = true) (by decide)
      fun s _ ⟨hpc, hpassed⟩ => ⟨⟨hpc, hpassed⟩, fun hsound => ?_⟩
    rw [hsound.heard 0 () 0 hpc] at hpassed
    cases hpassed

end Futexes

end Kairax.Proc
