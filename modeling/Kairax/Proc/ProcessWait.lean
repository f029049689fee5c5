import Kairax.Proc.ProcessTreeSteps

/-!
# Waiting for a process

A wait that ends with a zombie: the caller takes a reference to it, the table and the list of the parent let it go,
and the caller gives its reference back.
-/

namespace Kairax.Proc.Tree.System

open Lib List Option Function

variable {A : Type*} [DecidableEq A] {s t : System A} {p c : A} {proc child : Process A} {l : List A}

/-- A wait comes to an end, with everything in order. -/
def Ends (call : Option (WaitResult A × System A)) : Prop := ∃ res t, call = some (res, t) ∧ t.Inv

namespace Inv

theorem entry_drop (hinv : s.Inv) {r : Ref A} {pid : Nat} (hpid : s.pidOf r = some pid) (hnot : r ∉ s.returned)
    (hothers : ∀ r', r' ≠ r → t.pidOf r' = s.pidOf r') (hentries : t.processes = update s.processes pid none)
    (hreturned : t.returned = r :: s.returned) (pid' : Nat) (r' : Ref A) :
    t.processes pid' = some r' ↔ t.pidOf r' = some pid' ∧ r' ∉ t.returned := by
  rw [hentries, hreturned, mem_cons, not_or]
  by_cases hr : r' = r
  · refine iff_of_false (fun h => ?_) fun h => h.2.1 hr
    by_cases hid : pid' = pid
    · rw [hid, update_self] at h
      cases h
    · rw [update_of_ne hid, hr, hinv.entry, hpid] at h
      exact hid (some.inj h.1).symm
  · rw [hothers r' hr, and_iff_right hr, ← hinv.entry]
    by_cases hid : pid' = pid
    · rw [hid, update_self, (hinv.entry pid r).mpr ⟨hpid, hnot⟩]
      exact iff_of_false nofun fun h => hr (some.inj h).symm
    · rw [update_of_ne hid]

theorem withdraw (hinv : s.Inv) (hc : s.process c = .object child) (hnot : .process c ∉ s.returned)
    (hzombie : child.zombie = true) (hparent : child.parent.isSome)
    (hlists : ∀ x proc l, s.process x = .object proc → proc.children = some l → c ∉ l) (hheld : 0 < s.held c)
    (hedit : s.Edit t c { child with refs := child.refs - 2 })
    (hentries : t.processes = update s.processes child.pid none) (hheld' : t.held = s.held)
    (hreturned : t.returned = .process c :: s.returned) : t.Inv := by
  have hwaited (r : Ref A) (hr : r ≠ .process c) : r ∈ t.returned ↔ r ∈ s.returned := by
    rw [hreturned, mem_cons, or_iff_right hr]
  have hgood := hinv.good c child hc
  refine hinv.put hedit
    (hinv.entry_drop (pidOf_process hc) hnot (fun r _ => pidOf_eq hc hedit rfl r) hentries hreturned)
    hwaited ?_ (fun x _ => congrFun hheld' x) ?_ (fun _ => hheld' ▸ hheld) ?_ ?_
  · rw [hreturned]
    exact nodup_cons.mpr ⟨hnot, hinv.once⟩
  · have hrefs := hinv.refs c child hc
    rw [links, if_neg hnot, if_pos hparent] at hrefs
    rw [links, hreturned, if_pos mem_cons_self, hheld']
    push_cast
    omega
  · refine hgood.transfer rfl rfl rfl (fun _ => hzombie) Iff.rfl (fun l hl => ?_) (fun q hq => hedit.unused hq)
      (fun u _ => keeps_thread hedit.thread u)
    obtain ⟨hnodup, hmem⟩ := hgood.children l hl
    refine ⟨hnodup, fun b hb => ?_⟩
    have hbc : b ≠ c := fun h => hlists c child l hc hl (h ▸ hb)
    rw [hwaited _ fun h => hbc (Ref.process.inj h), hedit.others b hbc]
    exact hmem b hb
  · exact fun x procx l hx hl hmem => absurd hmem (hlists x procx l hx hl)

section

variable (hinv : s.Inv) (hp : s.process p = .object proc)
include hinv hp

theorem setChildren (hl : proc.children = some l) {l' : List A} (hnodup : l'.Nodup) (hmem : ∀ c ∈ l',
      .process c ∉ s.returned ∧ ∃ child, s.process c = .object child ∧ child.parent = some p) :
    (s.setProcess p { proc with children := some l' }).Inv := by
  have hgood := hinv.good p proc hp
  have hedit := edit_setProcess s p { proc with children := some l' }
  refine hinv.setObject hp rfl rfl rfl (hgood.transfer rfl rfl rfl hgood.reaped ?_ ?_ (fun _ => hedit.unused)
    (fun u _ => keeps_thread rfl u))
  · rw [hl]
    constructor <;> (intro h; cases h)
  · intro l hl'
    cases hl'
    refine ⟨hnodup, fun c hc => ?_⟩
    obtain ⟨hnot, child, hc, hparent⟩ := hmem c hc
    obtain ⟨child', hchild', hsame⟩ := hedit.kept hp rfl hc
    exact ⟨hnot, child', hchild', hsame.trans hparent⟩

theorem eraseChild (hl : proc.children = some l) : (s.setProcess p { proc with children := some (l.erase c) }).Inv := by
  obtain ⟨hnodup, hmem⟩ := (hinv.good p proc hp).children l hl
  exact hinv.setChildren hp hl (hnodup.erase c) fun b hb => hmem b (mem_of_mem_erase hb)

theorem reapProcess (hl : proc.children = some l) (hmem : c ∈ l)
    (hc : s.process c = .object child) (hzombie : child.zombie = true) (hne : c ≠ p) (hheld : 0 < s.held c) :
    Ends (s.reapProcess p c) := by
  obtain ⟨hnot, child', hc', hparent⟩ := ((hinv.good p proc hp).children l hl).2 c hmem
  cases hc.symm.trans hc'
  have hentry : s.processes child.pid = some (.process c) := (hinv.entry _ _).mpr ⟨pidOf_process hc, hnot⟩
  have hrefs := hinv.refs c child hc
  rw [links, if_neg hnot, hparent, isSome_some, if_pos rfl] at hrefs
  obtain ⟨s₁, hs₁⟩ : ∃ s₁ : System A, s₁ = setEntry (s.setProcess c { child with refs := child.refs - 1 })
    child.pid none := ⟨_, rfl⟩
  have hremove : s.removeProcessEntry c = some s₁ := by
    rw [removeProcessEntry, hc]
    show (if s.processes child.pid = some (.process c) then _ else _) = _
    rw [if_pos hentry, freeProcess_of_lt hc (by omega)]
    show (((s.setProcess c { child with refs := child.refs - 1 }).process c).get.bind _) = _
    rw [process_setProcess, hs₁]
    rfl
  have hself₁ : s₁.process c = .object { child with refs := child.refs - 1 } := by
    rw [hs₁]
    exact process_setProcess
  have hothers₁ (x : A) (hx : x ≠ c) : s₁.process x = s.process x := by
    rw [hs₁]
    exact process_setProcess_of_ne hx
  obtain ⟨s₂, hs₂⟩ : ∃ s₂ : System A, s₂ = { s₁ with returned := .process c :: s₁.returned } := ⟨_, rfl⟩
  obtain ⟨s₃, hs₃⟩ : ∃ s₃ : System A, s₃ = (s₂.setProcess p { proc with children := some (l.erase c) }).setProcess c
    { child with refs := child.refs - 2 } := ⟨_, rfl⟩
  have hremoveChild : s₂.processRemoveChild p c = some s₃ := by
    have hp₂ : s₂.process p = .object proc := by
      rw [hs₂]
      exact (hothers₁ p (Ne.symm hne)).trans hp
    have hc₂ : (s₂.setProcess p { proc with children := some (l.erase c) }).process c =
        .object { child with refs := child.refs - 1 } := by
      rw [process_setProcess_of_ne hne, hs₂]
      exact hself₁
    have hdec : child.refs - 1 - 1 = child.refs - 2 := by omega
    rw [processRemoveChild, hp₂]
    show proc.children.bind _ = _
    rw [hl]
    show (s₂.setProcess p { proc with children := some (l.erase c) }).freeProcess c false = _
    have hlt : 1 < child.refs - 1 := by omega
    rw [freeProcess_of_lt hc₂ hlt, hs₃]
    rw [hdec]
  have hinv₃ : s₃.Inv := by
    have hsame (x : A) (hx : x ≠ c) :
        s₃.process x = (s.setProcess p { proc with children := some (l.erase c) }).process x := by
      rw [hs₃, process_setProcess_of_ne hx]
      by_cases hxp : x = p
      · rw [hxp, process_setProcess, process_setProcess]
      · rw [process_setProcess_of_ne hxp, process_setProcess_of_ne hxp, hs₂]
        exact hothers₁ x hx
    refine (hinv.eraseChild hp hl).withdraw ((process_setProcess_of_ne hne).trans hc) hnot hzombie ?_ ?_
      hheld ⟨?_, hsame, ?_⟩ ?_ ?_ ?_
    · rw [hparent]
      rfl
    · intro x procx l' hx hl' hmem'
      by_cases hxp : x = p
      · rw [hxp, process_setProcess] at hx
        cases hx
        cases hl'
        exact ((List.Nodup.mem_erase_iff ((hinv.good p proc hp).children l hl).1).mp hmem').1 rfl
      · -- A child is on the list of its parent only.
        rw [process_setProcess_of_ne hxp] at hx
        obtain ⟨-, child', hc', hparent'⟩ := ((hinv.good x procx hx).children l' hl').2 c hmem'
        cases hc.symm.trans hc'
        exact hxp (some.inj (hparent'.symm.trans hparent))
    · rw [hs₃]
      exact process_setProcess
    all_goals
      rw [hs₃, hs₂, hs₁]
      rfl
  have hheld₃ : 0 < s₃.held c := by
    rw [hs₃, hs₂, hs₁]
    exact hheld
  obtain ⟨t, ht, hinvt⟩ := hinv₃.release hheld₃
  refine ⟨.reaped (.process c) child.pid child.code, t, ?_, hinvt⟩
  rw [System.reapProcess, hc]
  rw [hremove]
  show (System.processRemoveChild { s₁ with returned := .process c :: s₁.returned } p c).bind _ = _
  rw [← hs₂, hremoveChild]
  show (s₃.release c).bind _ = _
  rw [ht]
  rfl

theorem eraseThread {u : A} : (s.setProcess p { proc with threads := proc.threads.erase u }).Inv := by
  have hgood := hinv.good p proc hp
  have hedit := edit_setProcess s p { proc with threads := proc.threads.erase u }
  exact hinv.setObject hp rfl rfl rfl ⟨hgood.reaped, hgood.listed,
    hgood.transfer_children rfl fun c child hnot hc _ => ⟨hnot, hedit.kept hp rfl hc⟩,
    fun q hq hunused => hgood.parent q hq (hedit.unused hunused), hgood.nodup.erase u,
    fun w hw => hgood.threads w (mem_of_mem_erase hw)⟩

end

theorem dropThread (hinv : s.Inv) {u : A} {thr : Thread A} (hthr : s.thread u = .object thr)
    (hlists : ∀ x proc, s.process x = .object proc → u ∉ proc.threads) (hprocess : t.process = s.process)
    (hself : t.thread u = .freed) (hothers : ∀ w, w ≠ u → t.thread w = s.thread w)
    (hentries : t.processes = update s.processes thr.id none) (hheld : t.held = s.held)
    (hreturned : t.returned = .thread u :: s.returned) : t.Inv := by
  have hnot := hinv.not_returned_thread hthr
  have hwaited (x : A) : .process x ∈ t.returned ↔ .process x ∈ s.returned := by
    rw [hreturned, mem_cons, or_iff_right (by rintro ⟨⟩)]
  have hpid (r : Ref A) (hr : r ≠ .thread u) : t.pidOf r = s.pidOf r := by
    cases r with
    | process x => exact pidOf_eq_process (congrFun hprocess x)
    | thread w => exact pidOf_eq_thread (hothers w fun h => hr (congrArg _ h))
  refine ⟨hinv.entry_drop (pidOf_thread hthr) hnot hpid hentries hreturned, ?_, ?_, ?_, ?_, ?_, ?_⟩
  · intro x hx
    rw [hwaited, hheld]
    exact hinv.unused x (hprocess ▸ hx)
  · intro x
    rw [hwaited, hheld, hprocess]
    exact hinv.freed x
  · intro w hw
    by_cases hwu : w = u
    · rw [hwu]
      exact hself
    · rw [hothers w hwu]
      rw [hreturned, mem_cons, or_iff_right fun h => hwu (Ref.thread.inj h)] at hw
      exact hinv.thread w hw
  · rw [hreturned]
    exact nodup_cons.mpr ⟨hnot, hinv.once⟩
  · intro x procx hx
    rw [links, hheld, if_congr (hwaited x) rfl rfl]
    exact hinv.refs x procx (hprocess ▸ hx)
  · intro x procx hx
    rw [hprocess] at hx
    have hgood := hinv.good x procx hx
    refine hgood.transfer rfl rfl rfl (fun h => hgood.reaped ((hwaited x).mp h)) Iff.rfl
      (hgood.transfer_children rfl ?_) (fun q hq => hprocess ▸ hq) ?_
    · intro c child hnotc hc _
      rw [hwaited, hprocess]
      exact ⟨hnotc, child, hc, rfl⟩
    · intro w hw thr' hthr'
      have hwu : w ≠ u := by
        rintro rfl
        exact hlists x procx hx hw
      exact ⟨thr', (hothers w hwu).trans hthr', rfl, id⟩

theorem reapThread (hinv : s.Inv) {u : A} {thr : Thread A} (hp : s.process p = .object proc) (hu : u ∈ proc.threads)
    (hthr : s.thread u = .object thr) (hzombie : thr.zombie = true) :
    Ends (s.reapThread p u) := by
  have hentry : s.processes thr.id = some (.thread u) :=
    (hinv.entry _ _).mpr ⟨pidOf_thread hthr, hinv.not_returned_thread hthr⟩
  obtain ⟨t, ht⟩ : ∃ t : System A, t = { setProcess { s.setEntry thr.id none with returned := .thread u :: s.returned }
    p { proc with threads := proc.threads.erase u } with thread := update s.thread u .freed } := ⟨_, rfl⟩
  refine ⟨.reaped (.thread u) thr.id thr.code, t, ?_, ?_⟩
  · have hremove : s.removeThreadEntry u = some (s.setEntry thr.id none) := by
      rw [removeThreadEntry, hthr]
      exact if_pos hentry
    rw [System.reapThread, hthr]
    rw [hremove]
    show (s.process p).get.bind _ = _
    rw [hp]
    show (threadDestroy (setProcess { s.setEntry thr.id none with returned := .thread u :: s.returned } p
      { proc with threads := proc.threads.erase u }) u).bind _ = _
    have hdestroy : threadDestroy (setProcess { s.setEntry thr.id none with returned := .thread u :: s.returned } p
        { proc with threads := proc.threads.erase u }) u = some t := by
      rw [threadDestroy, setProcess, setEntry]
      rw [hthr, ht]
      exact if_pos hzombie
    rw [hdestroy]
    rfl
  · refine (hinv.eraseThread (u := u) hp).dropThread hthr ?_ ?_ ?_ ?_ ?_ ?_ ?_
    · intro x procx hx hmem
      by_cases hxp : x = p
      · rw [hxp, process_setProcess] at hx
        cases hx
        exact ((List.Nodup.mem_erase_iff (hinv.good p proc hp).nodup).mp hmem).1 rfl
      · rw [process_setProcess_of_ne hxp] at hx
        exact hxp (hinv.owner_unique hx hp hmem hu)
    · rw [ht]
      rfl
    · rw [ht]
      exact update_self ..
    · intro w hw
      rw [ht]
      exact update_of_ne hw _ _
    all_goals
      rw [ht]
      rfl

end Inv

omit [DecidableEq A] in
theorem findChild_spec (found : Process A → Bool) (hobjects : ∀ c ∈ l, ∃ child, s.process c = .object child) :
    s.findChild found l = some none ∨ ∃ c child, s.findChild found l = some (some c) ∧ c ∈ l ∧
      s.process c = .object child ∧ found child = true := by
  induction l with
  | nil => exact .inl rfl
  | cons c l ih =>
    obtain ⟨child, hc⟩ := hobjects c mem_cons_self
    have hunfold : s.findChild found (c :: l) = if found child then some (some c) else s.findChild found l := by
      rw [findChild, hc]
      rfl
    split_ifs at hunfold with hfound
    · exact .inr ⟨c, child, hunfold, mem_cons_self, hc, hfound⟩
    · rw [hunfold]
      obtain hnone | ⟨b, childb, hb, hmem, hrest⟩ := ih fun b hb => hobjects b (mem_cons_of_mem c hb)
      · exact .inl hnone
      · exact .inr ⟨b, childb, hb, mem_cons_of_mem c hmem, hrest⟩

omit [DecidableEq A] in
theorem findThread_spec (id : Int) (hobjects : ∀ u ∈ l, ∃ thr, s.thread u = .object thr) :
    s.findThread id l = some none ∨
      ∃ u thr, s.findThread id l = some (some u) ∧ u ∈ l ∧ s.thread u = .object thr := by
  induction l with
  | nil => exact .inl rfl
  | cons u l ih =>
    obtain ⟨thr, hu⟩ := hobjects u mem_cons_self
    have hunfold : s.findThread id (u :: l) = if (thr.id : Int) = id then some (some u) else s.findThread id l := by
      rw [findThread, hu]
      rfl
    split_ifs at hunfold with hfound
    · exact .inr ⟨u, thr, hunfold, mem_cons_self, hu⟩
    · rw [hunfold]
      obtain hnone | ⟨w, thrw, hw, hmem, hrest⟩ := ih fun w hw => hobjects w (mem_cons_of_mem u hw)
      · exact .inl hnone
      · exact .inr ⟨w, thrw, hw, mem_cons_of_mem u hmem, hrest⟩

namespace Inv

theorem processGetChild (hinv : s.Inv) (hp : s.process p = .object proc) (halive : proc.zombie = false)
    (found : Process A → Bool) :
    s.processGetChild p found = some (none, s) ∨
      ∃ l c child t, proc.children = some l ∧ c ∈ l ∧ s.process c = .object child ∧ found child = true ∧
        s.processGetChild p found = some (some c, t) ∧ t.Inv ∧ s.Edit t c { child with refs := child.refs + 1 } ∧
        0 < t.held c := by
  have hgood := hinv.good p proc hp
  obtain ⟨l, hl⟩ : ∃ l, proc.children = some l := by
    rw [← ne_none_iff_exists']
    intro hnone
    rw [hgood.listed, halive] at hnone
    cases hnone
  have hunfold : s.processGetChild p found = (s.findChild found l).bind fun c =>
      c.elim (some (none, s)) fun c => (s.take c).bind fun s => some (some c, s) := by
    rw [System.processGetChild, hp]
    show proc.children.bind _ = _
    rw [hl]
    show (s.findChild found l).bind _ = _
    congr 1
    funext c
    cases c <;> rfl
  have hobjects : ∀ c ∈ l, ∃ child, s.process c = .object child := by
    intro c hc
    obtain ⟨-, child, hchild, -⟩ := (hgood.children l hl).2 c hc
    exact ⟨child, hchild⟩
  obtain hnone | ⟨c, child, hfind, hmem, hc, hfound⟩ := findChild_spec found hobjects
  · left
    rw [hunfold, hnone]
    rfl
  · right
    obtain ⟨t, ht, hinvt, hedit, hheld⟩ := hinv.take hc
    refine ⟨l, c, child, t, hl, hmem, hc, hfound, ?_, hinvt, hedit, hheld⟩
    rw [hunfold, hfind]
    show (s.take c).bind _ = _
    rw [ht]
    rfl

theorem reap_taken (hinv : t.Inv) (hp : s.process p = .object proc) (halive : proc.zombie = false)
    (hl : proc.children = some l) (hmem : c ∈ l) (hc : s.process c = .object child) (hzombie : child.zombie = true)
    (hedit : s.Edit t c { child with refs := child.refs + 1 }) (hheld : 0 < t.held c) : Ends (t.reapProcess p c) := by
  have hne : c ≠ p := by
    rintro rfl
    cases hp.symm.trans hc
    rw [halive] at hzombie
    cases hzombie
  exact hinv.reapProcess ((hedit.others p (Ne.symm hne)).trans hp) hl hmem hedit.self hzombie hne hheld

theorem sysWait (hinv : s.Inv) (hrunning : s.Running p) (id : Int) (nohang : Bool) : Ends (s.sysWait p id nohang) := by
  obtain ⟨proc, hp, halive⟩ := hrunning
  rw [System.sysWait]
  split_ifs with hpos hany
  · obtain hnone | ⟨l, c, child, t, hl, hmem, hc, -, hget, hinvt, hedit, hheld⟩ :=
      hinv.processGetChild hp halive fun child => child.pid = id
    · rw [hnone]
      show Ends ((s.process p).get.bind _)
      rw [hp]
      show Ends ((s.findThread id proc.threads).bind _)
      have hobjects : ∀ u ∈ proc.threads, ∃ thr, s.thread u = .object thr := by
        intro u hu
        obtain ⟨thr, hthr, -⟩ := (hinv.good p proc hp).threads u hu
        exact ⟨thr, hthr⟩
      obtain hnone | ⟨u, thr, hfind, hu, hthr⟩ := findThread_spec id hobjects
      · rw [hnone]
        exact ⟨_, s, rfl, hinv⟩
      · rw [hfind]
        show Ends ((s.thread u).get.bind _)
        rw [hthr]
        show Ends (if thr.zombie = true then _ else _)
        split_ifs with hzombie
        · exact hinv.reapThread hp hu hthr hzombie
        · exact ⟨_, s, rfl, hinv⟩
    · rw [hget]
      show Ends ((t.process c).get.bind _)
      rw [hedit.self]
      show Ends (if child.zombie = true then _ else _)
      by_cases hzombie : child.zombie = true
      · rw [if_pos hzombie]
        exact hinvt.reap_taken hp halive hl hmem hc hzombie hedit hheld
      · obtain ⟨u, hu, hinvu⟩ := hinvt.release hheld
        rw [if_neg hzombie, hu]
        exact ⟨_, u, rfl, hinvu⟩
  · obtain hnone | ⟨l, c, child, t, hl, hmem, hc, hzombie, hget, hinvt, hedit, hheld⟩ :=
      hinv.processGetChild hp halive fun child => child.zombie
    · rw [hnone]
      exact ⟨_, s, rfl, hinv⟩
    · rw [hget]
      exact hinvt.reap_taken hp halive hl hmem hc hzombie hedit hheld
  · exact ⟨_, s, rfl, hinv⟩

theorem processGetById (hinv : s.Inv) (pid : Nat) : ∃ t, s.processGetById pid = some t ∧ t.Inv := by
  rw [System.processGetById]
  split_ifs
  · exact ⟨s, rfl, hinv⟩
  · cases hentry : s.processes pid with
    | none => exact ⟨s, rfl, hinv⟩
    | some r =>
      obtain ⟨hpid, -⟩ := (hinv.entry pid r).mp hentry
      cases r with
      | process p =>
        obtain ⟨proc, hp, -⟩ := map_eq_some_iff.mp hpid
        cases hobject : s.process p with
        | unused | freed =>
          rw [hobject] at hp
          cases hp
        | object proc =>
          obtain ⟨t, ht, hinvt, -⟩ := hinv.take hobject
          exact ⟨t, ht, hinvt⟩
      | thread u =>
        obtain ⟨thr, hthr, -⟩ := map_eq_some_iff.mp hpid
        refine ⟨s, ?_, hinv⟩
        show (s.thread u).get.bind _ = _
        rw [hthr]
        rfl

end Inv

end Kairax.Proc.Tree.System
