import Kairax.Proc.ProcessTree

/-!
# References to processes

A change of one object keeps the invariant of the process tree if the object itself is still good. So a caller can take
a reference to an object and give it back, and when the last one is given back the threads leave the table.
-/

namespace Kairax.Proc.Tree.System

open Lib List Function

variable {A : Type*} [DecidableEq A] {s t : System A} {p c u x : A} {proc proc' child : Process A}

section Changes

omit [DecidableEq A]

theorem pidOf_process (hp : s.process p = .object proc) : s.pidOf (.process p) = some proc.pid := by
  rw [pidOf, hp]
  rfl

theorem pidOf_thread {thr : Thread A} (hu : s.thread u = .object thr) : s.pidOf (.thread u) = some thr.id := by
  rw [pidOf, hu]
  rfl

theorem pidOf_eq_process (hsame : t.process x = s.process x) : t.pidOf (.process x) = s.pidOf (.process x) := by
  rw [pidOf, pidOf, hsame]

theorem pidOf_eq_thread (hsame : t.thread u = s.thread u) : t.pidOf (.thread u) = s.pidOf (.thread u) := by
  rw [pidOf, pidOf, hsame]

/-- `t` is `s` with new data of the process `p`. -/
structure Edit (s t : System A) (p : A) (proc' : Process A) : Prop where
  self : t.process p = .object proc'
  others : ∀ x, x ≠ p → t.process x = s.process x
  thread : t.thread = s.thread

theorem pidOf_eq (hp : s.process p = .object proc) (hedit : s.Edit t p proc') (hpid : proc'.pid = proc.pid)
    (r : Ref A) :
    t.pidOf r = s.pidOf r := by
  cases r with
  | process x =>
    by_cases hx : x = p
    · rw [hx, pidOf_process hedit.self, pidOf_process hp, hpid]
    · exact pidOf_eq_process (hedit.others x hx)
  | thread u => exact pidOf_eq_thread (congrFun hedit.thread u)

theorem ne_of_unused (hself : t.process p = .object proc) (hx : t.process x = .unused) : x ≠ p := by
  rintro rfl
  rw [hself] at hx
  cases hx

theorem Edit.unused (hedit : s.Edit t p proc) (hx : t.process x = .unused) : s.process x = .unused :=
  (hedit.others x (ne_of_unused hedit.self hx)).symm.trans hx

theorem Edit.kept (hedit : s.Edit t p proc') (hp : s.process p = .object proc) (hparent : proc'.parent = proc.parent)
    (hx : s.process x = .object child) : ∃ child', t.process x = .object child' ∧ child'.parent = child.parent := by
  by_cases hxp : x = p
  · subst hxp
    cases hp.symm.trans hx
    exact ⟨proc', hedit.self, hparent⟩
  · exact ⟨child, (hedit.others x hxp).trans hx, rfl⟩

end Changes

omit [DecidableEq A] in
theorem Good.transfer (hgood : s.Good p proc) (hzombie : proc'.zombie = proc.zombie)
    (hparent : proc'.parent = proc.parent) (hlist : proc'.threads = proc.threads)
    (hreaped : .process p ∈ t.returned → proc.zombie = true) (hlisted : proc'.children = none ↔ proc.children = none)
    (hchildren : ∀ l, proc'.children = some l → l.Nodup ∧
      ∀ c ∈ l, .process c ∉ t.returned ∧ ∃ child, t.process c = .object child ∧ child.parent = some p)
    (hmade : ∀ q, t.process q = .unused → s.process q = .unused)
    (hthreads : ∀ u ∈ proc.threads, ∀ thr, s.thread u = .object thr →
      ∃ thr', t.thread u = .object thr' ∧ thr'.process = thr.process ∧ (thr.zombie = true → thr'.zombie = true)) :
    t.Good p proc' where
  reaped h := hzombie.trans (hreaped h)
  listed := by rw [hlisted, hzombie, hgood.listed]
  children := hchildren
  parent q hq h := hgood.parent q (hparent.symm.trans hq) (hmade q h)
  nodup := hlist ▸ hgood.nodup
  threads u hu := by
    rw [hlist] at hu
    rw [hzombie]
    obtain ⟨thr, hthr, howner, hdead⟩ := hgood.threads u hu
    obtain ⟨thr', hthr', howner', hdead'⟩ := hthreads u hu thr hthr
    exact ⟨thr', hthr', howner'.trans howner, fun h => hdead' (hdead h)⟩

omit [DecidableEq A] in
theorem Good.transfer_children (hgood : s.Good p proc) (hlist : proc'.children = proc.children)
    (hkept : ∀ c child, .process c ∉ s.returned → s.process c = .object child → child.parent = some p →
      .process c ∉ t.returned ∧ ∃ child', t.process c = .object child' ∧ child'.parent = child.parent) (l : List A)
    (hl : proc'.children = some l) : l.Nodup ∧
      ∀ c ∈ l, .process c ∉ t.returned ∧ ∃ child, t.process c = .object child ∧ child.parent = some p := by
  obtain ⟨hnodup, hmem⟩ := hgood.children l (hlist.symm.trans hl)
  refine ⟨hnodup, fun c hc => ?_⟩
  obtain ⟨hnot, child, hchild, hparent⟩ := hmem c hc
  obtain ⟨hnot', child', hchild', hsame⟩ := hkept c child hnot hchild hparent
  exact ⟨hnot', child', hchild', hsame.trans hparent⟩

omit [DecidableEq A] in
theorem keeps_thread (hthread : t.thread = s.thread) (u : A) (thr : Thread A) (hu : s.thread u = .object thr) :
    ∃ thr', t.thread u = .object thr' ∧ thr'.process = thr.process ∧ (thr.zombie = true → thr'.zombie = true) :=
  ⟨thr, (congrFun hthread u).trans hu, rfl, id⟩

theorem process_setProcess_of_ne (hx : x ≠ p) : (s.setProcess p proc).process x = s.process x :=
  update_of_ne hx _ _

theorem process_setProcess : (s.setProcess p proc).process p = .object proc :=
  update_self ..

theorem edit_setProcess (s : System A) (p : A) (proc : Process A) : s.Edit (s.setProcess p proc) p proc :=
  ⟨process_setProcess, fun _ => process_setProcess_of_ne, rfl⟩

namespace Inv

section

variable (hinv : s.Inv)
include hinv

theorem held_object (hheld : 0 < s.held p) : ∃ proc, s.process p = .object proc := by
  refine hinv.exists_object ?_ (.inr hheld)
  intro hunused
  have hzero := (hinv.unused p hunused).2
  omega

theorem held_of_reaped (hp : s.process p = .object proc) (hreaped : .process p ∈ s.returned) : 0 < s.held p := by
  rw [Nat.pos_iff_ne_zero]
  intro hzero
  rw [(hinv.freed p).mpr ⟨hreaped, hzero⟩] at hp
  cases hp

theorem not_returned_thread {thr : Thread A} (hthr : s.thread u = .object thr) : .thread u ∉ s.returned := by
  intro hmem
  rw [hinv.thread u hmem] at hthr
  cases hthr

theorem owner_unique (hx : s.process x = .object proc') (hp : s.process p = .object proc)
    (hmem : u ∈ proc'.threads) (hmem' : u ∈ proc.threads) : x = p := by
  obtain ⟨thr, hthr, howner, -⟩ := (hinv.good x proc' hx).threads u hmem
  obtain ⟨thr', hthr', howner', -⟩ := (hinv.good p proc hp).threads u hmem'
  cases hthr.symm.trans hthr'
  exact howner.symm.trans howner'

theorem put (hedit : s.Edit t p proc')
    (hentry : ∀ pid r, t.processes pid = some r ↔ t.pidOf r = some pid ∧ r ∉ t.returned)
    (hreturned : ∀ r, r ≠ .process p → (r ∈ t.returned ↔ r ∈ s.returned)) (honce : t.returned.Nodup)
    (hheld : ∀ x, x ≠ p → t.held x = s.held x) (hrefs : proc'.refs = t.links p proc' + t.held p)
    (hn : .process p ∈ t.returned → 0 < t.held p) (hgood : t.Good p proc')
    (hlists : ∀ x procx l, s.process x = .object procx → procx.children = some l → p ∈ l →
      .process p ∉ t.returned ∧ proc'.parent = some x) : t.Inv := by
  have hwaited (x : A) (hx : x ≠ p) : .process x ∈ t.returned ↔ .process x ∈ s.returned :=
    hreturned _ fun h => hx (Ref.process.inj h)
  refine { entry := hentry, unused := ?_, freed := ?_, thread := ?_, once := honce, refs := ?_, good := ?_ }
  · intro x hx
    have hxp := ne_of_unused hedit.self hx
    rw [hwaited x hxp, hheld x hxp]
    exact hinv.unused x ((hedit.others x hxp).symm.trans hx)
  · intro x
    by_cases hx : x = p
    · rw [hx, hedit.self]
      constructor
      · intro h
        cases h
      · rintro ⟨hmem, hzero⟩
        have hpos := hn hmem
        omega
    · rw [hwaited x hx, hedit.others x hx, hheld x hx]
      exact hinv.freed x
  · intro u hu
    rw [hreturned _ (by rintro ⟨⟩)] at hu
    rw [hedit.thread]
    exact hinv.thread u hu
  · intro x procx hx
    by_cases hxp : x = p
    · rw [hxp, hedit.self] at hx
      cases hx
      rw [hxp]
      exact hrefs
    · rw [links, hheld x hxp, if_congr (hwaited x hxp) rfl rfl]
      exact hinv.refs x procx ((hedit.others x hxp).symm.trans hx)
  · intro x procx hx
    by_cases hxp : x = p
    · rw [hxp, hedit.self] at hx
      cases hx
      rw [hxp]
      exact hgood
    · rw [hedit.others x hxp] at hx
      have hgoodx := hinv.good x procx hx
      refine hgoodx.transfer rfl rfl rfl (fun h => hgoodx.reaped ((hwaited x hxp).mp h)) Iff.rfl (fun l hl => ?_)
        (fun q hq => hedit.unused hq) (fun u _ => keeps_thread hedit.thread u)
      obtain ⟨hnodup, hmem⟩ := hgoodx.children l hl
      refine ⟨hnodup, fun c hc => ?_⟩
      by_cases hcp : c = p
      · subst hcp
        obtain ⟨hnot, hparent⟩ := hlists x procx l hx hl hc
        exact ⟨hnot, proc', hedit.self, hparent⟩
      · rw [hwaited c hcp, hedit.others c hcp]
        exact hmem c hc

section

variable (hp : s.process p = .object proc)
include hp

theorem edit (hedit : s.Edit t p proc') (hpid : proc'.pid = proc.pid) (hparent : proc'.parent = proc.parent)
    (hentries : t.processes = s.processes) (hreturned : t.returned = s.returned)
    (hheld : ∀ x, x ≠ p → t.held x = s.held x) (hrefs : proc'.refs = s.links p proc + t.held p)
    (hn : .process p ∈ s.returned → 0 < t.held p) (hgood : t.Good p proc') : t.Inv := by
  refine hinv.put hedit ?_ (fun r _ => by rw [hreturned]) (hreturned ▸ hinv.once) hheld ?_ (hreturned ▸ hn) hgood ?_
  · intro pid r
    rw [hentries, hreturned, pidOf_eq hp hedit hpid]
    exact hinv.entry pid r
  · rw [links, hreturned, hparent]
    exact hrefs
  · intro x procx l hx hl hmem
    obtain ⟨hnot, child, hchild, hof⟩ := ((hinv.good x procx hx).children l hl).2 p hmem
    cases hp.symm.trans hchild
    exact ⟨hreturned ▸ hnot, hparent.trans hof⟩

theorem setObject (hpid : proc'.pid = proc.pid) (hparent : proc'.parent = proc.parent) (hrefs : proc'.refs = proc.refs)
    (hgood : (s.setProcess p proc').Good p proc') : (s.setProcess p proc').Inv :=
  hinv.edit hp (edit_setProcess s p proc') hpid hparent rfl rfl (fun _ _ => rfl) (hrefs.trans (hinv.refs p proc hp))
    (hinv.held_of_reaped hp) hgood

theorem setHeld {refs : Int} {n : Nat} (hrefs : refs = s.links p proc + n) (hn : .process p ∈ s.returned → 0 < n) :
    Inv { s.setProcess p { proc with refs } with held := update s.held p n } := by
  have hgood := hinv.good p proc hp
  have hedit := edit_setProcess s p { proc with refs }
  refine hinv.edit hp { hedit with } rfl rfl rfl rfl (fun x hx => update_of_ne hx _ _) ?_ ?_
    (hgood.transfer rfl rfl rfl hgood.reaped Iff.rfl (hgood.transfer_children rfl fun c child hnot hc _ =>
      ⟨hnot, hedit.kept hp rfl hc⟩) (fun _ => hedit.unused) (fun u _ => keeps_thread rfl u))
  · dsimp only
    rw [update_self]
    exact hrefs
  · dsimp only
    rw [update_self]
    exact hn

theorem destroy (hwaited : .process p ∈ s.returned)
    (hself : t.process p = .freed) (hothers : ∀ x, x ≠ p → t.process x = s.process x)
    (hthread : ∀ u, t.thread u = if u ∈ proc.threads then .freed else s.thread u)
    (hentries : ∀ pid r, t.processes pid = some r ↔ s.processes pid = some r ∧ ∀ u ∈ proc.threads, r ≠ .thread u)
    (hheld : t.held = update s.held p 0) (hreturned : t.returned = s.returned) : t.Inv := by
  have hkept (x : A) {b : Block (Process A)} (hx : t.process x = b) (hb : b ≠ .freed) : x ≠ p ∧ s.process x = b := by
    have hne : x ≠ p := by
      rintro rfl
      exact hb (hx.symm.trans hself)
    exact ⟨hne, (hothers x hne).symm.trans hx⟩
  refine { entry := ?_, unused := ?_, freed := ?_, thread := ?_, once := ?_, refs := ?_, good := ?_ }
  · intro pid r
    rw [hentries, hinv.entry, hreturned]
    cases r with
    | process x =>
      by_cases hx : x = p
      · rw [hx]
        constructor
        · rintro ⟨⟨-, hnot⟩, -⟩
          exact absurd hwaited hnot
        · rintro ⟨-, hnot⟩
          exact absurd hwaited hnot
      · rw [pidOf_eq_process (hothers x hx)]
        constructor
        · exact fun h => h.1
        · exact fun h => ⟨h, fun u _ => by rintro ⟨⟩⟩
    | thread u =>
      by_cases hu : u ∈ proc.threads
      · have hnone : t.pidOf (.thread u) = none := by
          rw [pidOf, hthread, if_pos hu]
          rfl
        rw [hnone]
        constructor
        · rintro ⟨-, hnot⟩
          exact absurd rfl (hnot u hu)
        · rintro ⟨hsome, -⟩
          cases hsome
      · have hsame : t.thread u = s.thread u := by rw [hthread, if_neg hu]
        rw [pidOf_eq_thread hsame]
        constructor
        · exact fun h => h.1
        · refine fun h => ⟨h, fun w hw heq => ?_⟩
          obtain rfl := Ref.thread.inj heq
          exact hu hw
  · intro x hx
    obtain ⟨hne, hunused⟩ := hkept x hx (by rintro ⟨⟩)
    rw [hreturned, hheld, update_of_ne hne]
    exact hinv.unused x hunused
  · intro x
    rw [hreturned, hheld]
    by_cases hx : x = p
    · rw [hx, hself, update_self]
      exact ⟨fun _ => ⟨hwaited, rfl⟩, fun _ => rfl⟩
    · rw [hothers x hx, update_of_ne hx]
      exact hinv.freed x
  · intro u hu
    rw [hthread]
    split_ifs
    · rfl
    · exact hinv.thread u (hreturned ▸ hu)
  · rw [hreturned]
    exact hinv.once
  · intro x procx hx
    obtain ⟨hne, hx⟩ := hkept x hx (by rintro ⟨⟩)
    rw [links, hreturned, hheld, update_of_ne hne]
    exact hinv.refs x procx hx
  · intro x procx hx
    obtain ⟨hne, hx⟩ := hkept x hx (by rintro ⟨⟩)
    have hgood := hinv.good x procx hx
    refine hgood.transfer rfl rfl rfl (hreturned ▸ hgood.reaped) Iff.rfl (hgood.transfer_children rfl ?_)
      (fun q hq => (hkept q hq (by rintro ⟨⟩)).2) ?_
    · intro c child hnot hchild _
      refine ⟨hreturned ▸ hnot, child, (hothers c ?_).trans hchild, rfl⟩
      rintro rfl
      exact hnot hwaited
    · intro u hu thr hthr
      refine ⟨thr, ?_, rfl, id⟩
      have hother : u ∉ proc.threads := fun hmem => hne (hinv.owner_unique hx hp hu hmem)
      rw [hthread, if_neg hother]
      exact hthr

end

end

end Inv

theorem foldlM_destroyEntry {l : List A} (hnodup : l.Nodup)
    (hthreads : ∀ u ∈ l, ∃ thr, s.thread u = .object thr ∧ thr.zombie = true ∧
      ∀ pid, s.processes pid = some (.thread u) ↔ pid = thr.id) :
    ∃ t, l.foldlM destroyEntry s = some t ∧ t.process = s.process ∧ t.held = s.held ∧ t.returned = s.returned ∧
      (∀ u, t.thread u = if u ∈ l then .freed else s.thread u) ∧
      ∀ pid r, t.processes pid = some r ↔ s.processes pid = some r ∧ ∀ u ∈ l, r ≠ .thread u := by
  induction l generalizing s with
  | nil =>
    refine ⟨s, rfl, rfl, rfl, rfl, fun u => ?_, fun pid r => ?_⟩
    · rw [if_neg not_mem_nil]
    · exact ⟨fun h => ⟨h, fun u hu => absurd hu not_mem_nil⟩, fun h => h.1⟩
  | cons u l ih =>
    obtain ⟨hu, hnodup⟩ := nodup_cons.mp hnodup
    obtain ⟨thr, hthr, hzombie, hentry⟩ := hthreads u mem_cons_self
    let s₁ : System A := { s.setEntry thr.id none with thread := update s.thread u .freed }
    have hstep : s.destroyEntry u = some s₁ := by
      have hremove : s.removeThreadEntry u = some (s.setEntry thr.id none) := by
        rw [removeThreadEntry, hthr]
        exact if_pos ((hentry thr.id).mpr rfl)
      rw [destroyEntry, hremove]
      show (s.thread u).get.bind _ = _
      rw [hthr]
      exact if_pos hzombie
    have hentries (pid : Nat) (r : Ref A) :
        s₁.processes pid = some r ↔ s.processes pid = some r ∧ r ≠ .thread u := by
      show update s.processes thr.id none pid = _ ↔ _
      by_cases hpid : pid = thr.id
      · rw [hpid, update_self, (hentry thr.id).mpr rfl]
        constructor
        · intro h
          cases h
        · rintro ⟨hr, hne⟩
          exact absurd (Option.some.inj hr).symm hne
      · rw [update_of_ne hpid]
        refine ⟨fun h => ⟨h, ?_⟩, fun h => h.1⟩
        rintro rfl
        exact hpid ((hentry pid).mp h)
    have hkept (w : A) (hw : w ≠ u) : s₁.thread w = s.thread w := update_of_ne hw _ _
    obtain ⟨t, ht, hprocess, hheld, hreturned, hthread, hrest⟩ := ih hnodup (by
      intro w hw
      have hne : w ≠ u := fun h => hu (h ▸ hw)
      obtain ⟨thr', hthr', hzombie', hentry'⟩ := hthreads w (mem_cons_of_mem u hw)
      refine ⟨thr', (hkept w hne).trans hthr', hzombie', fun pid => ?_⟩
      rw [hentries, hentry']
      exact ⟨fun h => h.1, fun h => ⟨h, fun heq => hne (Ref.thread.inj heq)⟩⟩)
    refine ⟨t, ?_, hprocess, hheld, hreturned, fun w => ?_, fun pid r => ?_⟩
    · rw [foldlM_cons, hstep]
      exact ht
    · rw [hthread]
      by_cases hw : w = u
      · rw [hw, if_neg hu, if_pos mem_cons_self]
        exact update_self ..
      · rw [hkept w hw]
        exact if_congr (by rw [mem_cons, or_iff_right hw]) rfl rfl
    · rw [hrest, hentries, forall_mem_cons, and_assoc]

theorem freeProcess_of_lt (hp : s.process p = .object proc) (hrefs : 1 < proc.refs) (locked : Bool) :
    s.freeProcess p locked = some (s.setProcess p { proc with refs := proc.refs - 1 }) := by
  rw [freeProcess, hp]
  exact if_neg (by omega)

theorem processAcquire_object (hp : s.process p = .object proc) :
    s.processAcquire p = some (s.setProcess p { proc with refs := proc.refs + 1 }) := by
  rw [processAcquire, hp]
  rfl

namespace Inv

theorem take (hinv : s.Inv) (hp : s.process p = .object proc) :
    ∃ t, s.take p = some t ∧ t.Inv ∧ s.Edit t p { proc with refs := proc.refs + 1 } ∧ 0 < t.held p := by
  refine ⟨{ s.setProcess p { proc with refs := proc.refs + 1 } with held := update s.held p (s.held p + 1) },
    ?_, hinv.setHeld hp ?_ fun _ => Nat.succ_pos _, { edit_setProcess s p _ with }, ?_⟩
  · rw [System.take, processAcquire_object hp]
    rfl
  · rw [hinv.refs p proc hp]
    omega
  · dsimp only
    rw [update_self]
    exact Nat.succ_pos _

theorem release (hinv : s.Inv) (hheld : 0 < s.held p) : ∃ t, s.release p = some t ∧ t.Inv := by
  obtain ⟨proc, hp⟩ := hinv.held_object hheld
  have hrefs := hinv.refs p proc hp
  by_cases hlast : proc.refs = 1
  · -- Only the reference of the caller is left, so the process has been waited for.
    have hwaited : .process p ∈ s.returned := by
      by_contra hnot
      rw [links] at hrefs
      split_ifs at hrefs <;> omega
    have hgood := hinv.good p proc hp
    have hzombie := hgood.reaped hwaited
    obtain ⟨s₂, hs₂, hprocess, hheld₂, hreturned, hthread, hentries⟩ := foldlM_destroyEntry
      (s := setProcess { s with held := update s.held p (s.held p - 1) } p { proc with refs := proc.refs - 1 })
      hgood.nodup (by
        intro u hu
        obtain ⟨thr, hthr, -, hdead⟩ := hgood.threads u hu
        refine ⟨thr, hthr, hdead hzombie, fun pid => (hinv.entry pid _).trans ?_⟩
        rw [pidOf_thread hthr]
        constructor
        · rintro ⟨hid, -⟩
          exact (Option.some.inj hid).symm
        · rintro rfl
          exact ⟨rfl, hinv.not_returned_thread hthr⟩)
    refine ⟨{ s₂ with process := update s₂.process p .freed }, ?_, hinv.destroy hp hwaited
      (update_self ..) (fun x hx => (update_of_ne hx _ _).trans ?_) hthread hentries ?_ hreturned⟩
    · have hnotLocked : ¬ (false = true ∧ proc.threads ≠ []) := fun h => Bool.false_ne_true h.1
      have hzero : proc.refs - 1 ≤ 0 := by omega
      rw [System.release, freeProcess]
      rw [hp]
      show (if proc.refs - 1 ≤ 0 then _ else _) = _
      rw [if_pos hzero, if_pos hzombie, if_neg hnotLocked, hs₂]
      rfl
    · rw [hprocess]
      exact process_setProcess_of_ne hx
    · have hone : s.held p - 1 = 0 := by omega
      rw [hone] at hheld₂
      exact hheld₂
  · refine ⟨_, freeProcess_of_lt (s := { s with held := update s.held p (s.held p - 1) }) hp ?_ false,
      hinv.setHeld hp ?_ fun hmem => ?_⟩
    · omega
    · omega
    · rw [links, if_pos hmem] at hrefs
      omega

end Inv

end Kairax.Proc.Tree.System
