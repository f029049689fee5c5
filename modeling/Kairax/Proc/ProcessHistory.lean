import Kairax.Proc.ProcessWait

/-!
# Histories of the process tree

As long as the table has room and no process outlives the object of its parent, the numbers are distinct, the table
points back, each zombie is returned once, and a process object is given back exactly when nothing refers to it.
-/

namespace Kairax.Proc.Tree.System

open Lib List Option Function

variable {A : Type*} [DecidableEq A] {s t : System A} {p q u : A} {proc child : Process A} {thr : Thread A}
  {parent : Option A} {op : ProcessOp A} {pid : Nat} {l : List A}

omit [DecidableEq A] in
theorem firstFree_spec {processes : Nat → Option (Ref A)} (hfirst : firstFree processes = some pid) :
    pid < maxProcesses ∧ processes pid = none := by
  rw [firstFree] at hfirst
  obtain ⟨hfree, hmem, -⟩ := find?_range_eq_some.mp hfirst
  exact ⟨mem_range.mp hmem, isNone_iff_eq_none.mp hfree⟩

omit [DecidableEq A] in
theorem firstFree_eq_none_iff : firstFree s.processes = none ↔ ¬ s.HasRoom := by
  rw [firstFree, find?_eq_none]
  constructor
  · rintro hfull ⟨pid, hlt, hfree⟩
    exact hfull pid (mem_range.mpr hlt) (isNone_iff_eq_none.mpr hfree)
  · intro hfull pid hmem hfree
    exact hfull ⟨pid, mem_range.mp hmem, isNone_iff_eq_none.mp hfree⟩

omit [DecidableEq A] in
theorem exists_firstFree (hroom : s.HasRoom) : ∃ pid, firstFree s.processes = some pid := by
  rw [← ne_none_iff_exists']
  intro hnone
  exact firstFree_eq_none_iff.mp hnone hroom

theorem setEntry_setProcess (pid : Nat) (r : Option (Ref A)) :
    (s.setProcess p proc).setEntry pid r = (s.setEntry pid r).setProcess p proc := rfl

theorem setEntry_setThread (pid : Nat) (r : Option (Ref A)) :
    (s.setThread u thr).setEntry pid r = (s.setEntry pid r).setThread u thr := rfl

theorem setThread_setProcess (thr : Thread A) :
    (s.setProcess p proc).setThread u thr = (s.setThread u thr).setProcess p proc := rfl

theorem setThread_setThread (thr' : Thread A) : (s.setThread u thr).setThread u thr' = s.setThread u thr' := by
  rw [setThread, setThread, setThread, update_idem]

theorem thread_setThread : (s.setThread u thr).thread u = .object thr :=
  update_self ..

theorem thread_setThread_of_ne {w : A} (hw : w ≠ u) : (s.setThread u thr).thread w = s.thread w :=
  update_of_ne hw _ _

theorem setProcess_setProcess (proc' : Process A) :
    (s.setProcess p proc).setProcess p proc' = s.setProcess p proc' := by
  rw [setProcess, setProcess, setProcess, update_idem]

theorem setProcess_comm (hne : p ≠ q) (proc' : Process A) :
    (s.setProcess p proc).setProcess q proc' = (s.setProcess q proc').setProcess p proc := by
  rw [setProcess, setProcess, setProcess, setProcess, update_comm hne]

namespace Inv

theorem entry_new (hinv : s.Inv) {r : Ref A} (hfree : s.processes pid = none) (hnew : s.pidOf r = none)
    (hnot : r ∉ s.returned) (hself : t.pidOf r = some pid) (hothers : ∀ r', r' ≠ r → t.pidOf r' = s.pidOf r')
    (hentries : t.processes = update s.processes pid (some r)) (hreturned : t.returned = s.returned)
    (pid' : Nat) (r' : Ref A) : t.processes pid' = some r' ↔ t.pidOf r' = some pid' ∧ r' ∉ t.returned := by
  rw [hentries, hreturned]
  by_cases hr : r' = r
  · rw [hr, hself]
    by_cases hpid : pid' = pid
    · rw [hpid, update_self]
      exact ⟨fun _ => ⟨rfl, hnot⟩, fun _ => rfl⟩
    · rw [update_of_ne hpid, hinv.entry, hnew]
      constructor
      · rintro ⟨hnone, -⟩
        cases hnone
      · rintro ⟨hsame, -⟩
        exact absurd (some.inj hsame).symm hpid
  · rw [hothers r' hr, ← hinv.entry]
    by_cases hpid : pid' = pid
    · rw [hpid, update_self, hfree]
      constructor
      · intro h
        exact absurd (some.inj h).symm hr
      · intro h
        cases h
    · rw [update_of_ne hpid]

theorem addProcess (hinv : s.Inv) (hp : s.process p = .unused) (hfree : s.processes pid = none)
    (hparent : ∀ q, parent = some q → s.process q ≠ .unused)
    (hedit : s.Edit t p ⟨pid, false, 0, if parent.isSome then 2 else 1, parent, [], some []⟩)
    (hentries : t.processes = update s.processes pid (some (.process p))) (hheld : t.held = s.held)
    (hreturned : t.returned = s.returned) : t.Inv := by
  obtain ⟨hnot, hzero⟩ := hinv.unused p hp
  have hnew : s.pidOf (.process p) = none := by
    rw [pidOf, hp]
    rfl
  refine hinv.put hedit ?_ (fun r _ => by rw [hreturned]) (hreturned ▸ hinv.once) (fun x _ => congrFun hheld x) ?_
    (fun h => absurd (hreturned ▸ h) hnot) ?_ ?_
  · refine hinv.entry_new hfree hnew hnot (pidOf_process hedit.self) ?_ hentries hreturned
    intro r hr
    cases r with
    | process x => exact pidOf_eq_process (hedit.others x fun h => hr (congrArg _ h))
    | thread w => exact pidOf_eq_thread (congrFun hedit.thread w)
  · rw [links, hreturned, hheld, hzero]
    split_ifs <;> rfl
  · refine ⟨fun h => absurd (hreturned ▸ h) hnot, ?_, ?_, ?_, nodup_nil, fun w hw => absurd hw not_mem_nil⟩
    · constructor <;> (intro h; cases h)
    · intro l hl
      cases hl
      exact ⟨nodup_nil, fun c hc => absurd hc not_mem_nil⟩
    · exact fun q hq hunused => hparent q hq (hedit.unused hunused)
  · intro x procx l hx hl hmem
    obtain ⟨-, child, hchild, -⟩ := ((hinv.good x procx hx).children l hl).2 p hmem
    rw [hp] at hchild
    cases hchild

theorem addChild (hinv : s.Inv) {c : A} (hp : s.process p = .object proc) (hl : proc.children = some l)
    (hc : s.process c = .object child) (hparent : child.parent = some p) (hnot : .process c ∉ s.returned)
    (hmem : c ∉ l) : (s.setProcess p { proc with children := some (l ++ [c]) }).Inv := by
  obtain ⟨hnodup, hall⟩ := (hinv.good p proc hp).children l hl
  refine hinv.setChildren hp hl ?_ fun b hb => ?_
  · rw [← concat_eq_append]
    exact hnodup.concat hmem
  · obtain hb | hb := mem_append.mp hb
    · exact hall b hb
    · obtain rfl := mem_singleton.mp hb
      exact ⟨hnot, child, hc, hparent⟩

end Inv

def newProcess (pid : Nat) (parent : Option A) : Process A :=
  ⟨pid, false, 0, if parent.isSome then 2 else 1, parent, [], some []⟩

theorem processAddToList_process (hp : s.process p = .object proc) (hfirst : firstFree s.processes = some pid) :
    s.processAddToList (.process p) =
      some ((s.setEntry pid (some (.process p))).setProcess p { proc with pid, refs := proc.refs + 1 }) := by
  rw [processAddToList, hfirst]
  rw [hp]
  show processAcquire ((s.setEntry pid (some (.process p))).setProcess p { proc with pid }) p = _
  rw [processAcquire_object process_setProcess, setProcess_setProcess]

theorem processAddToList_thread (hu : s.thread u = .object thr) (hfirst : firstFree s.processes = some pid) :
    s.processAddToList (.thread u) =
      some ((s.setEntry pid (some (.thread u))).setThread u { thr with id := pid }) := by
  rw [processAddToList, hfirst]
  rw [hu]
  rfl

theorem processAddToList_full (hfull : firstFree s.processes = none) (r : Ref A) : s.processAddToList r = some s := by
  cases r with
  | process p | thread u => rw [processAddToList, hfull]

theorem create_root (p : A) : s.create p true none =
    (s.setProcess p ⟨0, false, 0, 0, none, [], some []⟩).processAddToList (.process p) := by
  rfl

theorem create_child (hne : q ≠ p) (hq : s.process q = .object proc) (hl : proc.children = some l) :
    s.create p true (some q) = ((s.setProcess p ⟨0, false, 0, 1, some q, [], some []⟩).setProcess q
      { proc with children := some (l ++ [p]) }).processAddToList (.process p) := by
  rw [create, createNewProcess, process_setProcess_of_ne hne, hq]
  show (proc.children.bind _).bind _ = _
  rw [hl]
  rfl

theorem createThread_object (hp : s.process p = .object proc) (u : A) :
    s.createThread u p = ((s.setThread u ⟨0, false, 0, p⟩).setProcess p
      { proc with threads := proc.threads ++ [u] }).processAddToList (.thread u) := by
  show ((s.process p).get.bind _) = _
  rw [hp]
  rfl

omit [DecidableEq A] in
theorem Running.ne (hrunning : s.Running q) (hp : s.process p = .unused) : q ≠ p := by
  rintro rfl
  obtain ⟨proc, hq, -⟩ := hrunning
  rw [hp] at hq
  cases hq

namespace Inv

variable (hinv : s.Inv)

include hinv

theorem children_of_running (hrunning : s.Running p) :
    ∃ proc l, s.process p = .object proc ∧ proc.children = some l ∧ proc.zombie = false := by
  obtain ⟨proc, hp, halive⟩ := hrunning
  have hsome : proc.children ≠ none := by
    rw [Ne, (hinv.good p proc hp).listed, halive]
    exact Bool.false_ne_true
  obtain ⟨l, hl⟩ := ne_none_iff_exists'.mp hsome
  exact ⟨proc, l, hp, hl, halive⟩

theorem create (hp : s.process p = .unused) (hparent : ∀ q, parent = some q → s.Running q)
    (hroom : s.HasRoom) : ∃ t, s.create p true parent = some t ∧ t.Inv := by
  obtain ⟨pid, hfirst⟩ := exists_firstFree hroom
  obtain ⟨-, hfree⟩ := firstFree_spec hfirst
  have hnew : ((s.setEntry pid (some (.process p))).setProcess p (newProcess pid parent)).Inv := by
    refine hinv.addProcess hp hfree ?_ { edit_setProcess s p _ with } rfl rfl rfl
    intro q hq hunused
    exact (hparent q hq).ne hunused rfl
  cases parent with
  | none =>
    refine ⟨_, ?_, hnew⟩
    rw [create_root, processAddToList_process process_setProcess hfirst, setEntry_setProcess, setProcess_setProcess]
    rfl
  | some q =>
    have hne := (hparent q rfl).ne hp
    obtain ⟨proc, l, hq, hl, -⟩ := hinv.children_of_running (hparent q rfl)
    have hmem : p ∉ l := by
      intro hmem
      obtain ⟨-, child, hchild, -⟩ := ((hinv.good q proc hq).children l hl).2 p hmem
      rw [hp] at hchild
      cases hchild
    refine ⟨_, ?_, hnew.addChild ((process_setProcess_of_ne hne).trans hq) hl process_setProcess rfl
      (hinv.unused p hp).1 hmem⟩
    have hchild : ((s.setProcess p ⟨0, false, 0, 1, some q, [], some []⟩).setProcess q
        { proc with children := some (l ++ [p]) }).process p = .object ⟨0, false, 0, 1, some q, [], some []⟩ := by
      rw [process_setProcess_of_ne (Ne.symm hne), process_setProcess]
    rw [create_child hne hq hl, processAddToList_process hchild hfirst, setEntry_setProcess, setEntry_setProcess,
      setProcess_comm (Ne.symm hne), setProcess_setProcess, setProcess_comm hne]
    rfl

theorem putThread {processes : Nat → Option (Ref A)}
    (hentry : ∀ pid r, processes pid = some r ↔ (s.setThread u thr).pidOf r = some pid ∧ r ∉ s.returned)
    (hnot : .thread u ∉ s.returned)
    (hold : ∀ old, s.thread u = .object old → thr.process = old.process ∧ (old.zombie = true → thr.zombie = true)) :
    Inv { s.setThread u thr with processes } := by
  refine { hinv with entry := hentry, thread := ?_, good := ?_ }
  · intro w hw
    have hwu : w ≠ u := by
      rintro rfl
      exact hnot hw
    exact (thread_setThread_of_ne hwu).trans (hinv.thread w hw)
  · intro x procx hx
    have hgood := hinv.good x procx hx
    refine hgood.transfer rfl rfl rfl hgood.reaped Iff.rfl hgood.children (fun q hq => hq) ?_
    intro w hw thrw hthrw
    by_cases hwu : w = u
    · subst hwu
      exact ⟨thr, thread_setThread, hold thrw hthrw⟩
    · exact ⟨thrw, (thread_setThread_of_ne hwu).trans hthrw, rfl, id⟩

theorem setThread (hu : s.thread u = .object thr) {thr' : Thread A} (hid : thr'.id = thr.id)
    (howner : thr'.process = thr.process) (hzombie : thr.zombie = true → thr'.zombie = true) :
    (s.setThread u thr').Inv := by
  refine hinv.putThread (fun pid r => ?_) (hinv.not_returned_thread hu) fun old hold => ?_
  · have hpid : (s.setThread u thr').pidOf r = s.pidOf r := by
      cases r with
      | process x => rfl
      | thread w =>
        by_cases hw : w = u
        · rw [hw, pidOf_thread thread_setThread, pidOf_thread hu, hid]
        · exact pidOf_eq_thread (thread_setThread_of_ne hw)
    rw [hpid]
    exact hinv.entry pid r
  · cases hu.symm.trans hold
    exact ⟨howner, hzombie⟩

theorem addThread (hu : s.thread u = .unused) (hfree : s.processes pid = none) (hid : thr.id = pid) :
    ((s.setEntry pid (some (.thread u))).setThread u thr).Inv := by
  have hnot : .thread u ∉ s.returned := by
    intro hmem
    rw [hinv.thread u hmem] at hu
    cases hu
  have hnew : s.pidOf (.thread u) = none := by
    rw [pidOf, hu]
    rfl
  refine hinv.putThread (hinv.entry_new (t := (s.setEntry pid (some (.thread u))).setThread u thr) hfree hnew hnot ?_ ?_
    rfl rfl) hnot fun old hold => ?_
  · rw [pidOf_thread thread_setThread, hid]
  · intro r hr
    cases r with
    | process x => rfl
    | thread w => exact pidOf_eq_thread (thread_setThread_of_ne fun h => hr (congrArg _ h))
  · cases hu.symm.trans hold

theorem addToThreads (hp : s.process p = .object proc) (halive : proc.zombie = false)
    (hu : s.thread u = .object thr) (howner : thr.process = p) (hmem : u ∉ proc.threads) :
    (s.setProcess p { proc with threads := proc.threads ++ [u] }).Inv := by
  have hgood := hinv.good p proc hp
  have hedit := edit_setProcess s p { proc with threads := proc.threads ++ [u] }
  refine hinv.setObject hp rfl rfl rfl ⟨hgood.reaped, hgood.listed,
    hgood.transfer_children rfl fun c child hnot hc _ => ⟨hnot, hedit.kept hp rfl hc⟩,
    fun q hq hunused => hgood.parent q hq (hedit.unused hunused), ?_, ?_⟩
  · rw [← concat_eq_append]
    exact hgood.nodup.concat hmem
  · intro w hw
    obtain hw | hw := mem_append.mp hw
    · exact hgood.threads w hw
    · obtain rfl := mem_singleton.mp hw
      refine ⟨thr, hu, howner, fun hzombie => ?_⟩
      rw [halive] at hzombie
      cases hzombie

theorem createThread (hu : s.thread u = .unused) (hrunning : s.Running p) (hroom : s.HasRoom) :
    ∃ t, s.createThread u p = some t ∧ t.Inv := by
  obtain ⟨pid, hfirst⟩ := exists_firstFree hroom
  obtain ⟨-, hfree⟩ := firstFree_spec hfirst
  obtain ⟨proc, hp, halive⟩ := hrunning
  have hmem : u ∉ proc.threads := by
    intro hmem
    obtain ⟨thr, hthr, -⟩ := (hinv.good p proc hp).threads u hmem
    rw [hu] at hthr
    cases hthr
  have hnew : ((s.setEntry pid (some (.thread u))).setThread u ⟨pid, false, 0, p⟩).Inv := hinv.addThread hu hfree rfl
  refine ⟨_, ?_, hnew.addToThreads hp halive thread_setThread rfl hmem⟩
  have hthr : ((s.setThread u ⟨0, false, 0, p⟩).setProcess p { proc with threads := proc.threads ++ [u] }).thread u =
      .object ⟨0, false, 0, p⟩ := thread_setThread
  rw [createThread_object hp, processAddToList_thread hthr hfirst, setEntry_setProcess, setThread_setProcess,
    setEntry_setThread,
    setThread_setThread]

omit hinv

include hinv

theorem foldlM_killThread (hobjects : ∀ u ∈ l, ∃ thr, s.thread u = .object thr) :
    ∃ t, l.foldlM killThread s = some t ∧ t.Inv ∧ t.process = s.process ∧ t.held = s.held ∧
      t.returned = s.returned ∧ (∀ u ∈ l, ∃ thr, t.thread u = .object thr ∧ thr.zombie = true) ∧
      ∀ u thr, s.thread u = .object thr → ∃ thr', t.thread u = .object thr' ∧
      (thr.zombie = true → thr'.zombie = true) := by
  induction l generalizing s with
  | nil =>
    exact ⟨s, rfl, hinv, rfl, rfl, rfl, fun u hu => absurd hu not_mem_nil, fun u thr hu => ⟨thr, hu, id⟩⟩
  | cons u l ih =>
    obtain ⟨thr, hu⟩ := hobjects u mem_cons_self
    have hstep : s.killThread u = some (s.setThread u { thr with zombie := true }) := by
      rw [killThread, hu]
      rfl
    have hinv₁ : (s.setThread u { thr with zombie := true }).Inv := hinv.setThread hu rfl rfl fun _ => rfl
    have hkept (w : A) (thrw : Thread A) (hw : s.thread w = .object thrw) :
        ∃ thr', (s.setThread u { thr with zombie := true }).thread w = .object thr' ∧
          (thrw.zombie = true → thr'.zombie = true) := by
      by_cases hwu : w = u
      · subst hwu
        exact ⟨_, thread_setThread, fun _ => rfl⟩
      · exact ⟨thrw, (thread_setThread_of_ne hwu).trans hw, id⟩
    obtain ⟨t, ht, hinvt, hprocess, hheld, hreturned, hzombies, hmono⟩ := ih hinv₁ (by
      intro w hw
      obtain ⟨thrw, hthrw⟩ := hobjects w (mem_cons_of_mem u hw)
      obtain ⟨thr', hthr', -⟩ := hkept w thrw hthrw
      exact ⟨thr', hthr'⟩)
    refine ⟨t, ?_, hinvt, hprocess, hheld, hreturned, ?_, ?_⟩
    · rw [foldlM_cons, hstep]
      exact ht
    · intro w hw
      obtain rfl | hw := mem_cons.mp hw
      · obtain ⟨thr', hthr', hzombie'⟩ := hmono w _ thread_setThread
        exact ⟨thr', hthr', hzombie' rfl⟩
      · exact hzombies w hw
    · intro w thrw hw
      obtain ⟨thr₁, hthr₁, hzombie₁⟩ := hkept w thrw hw
      obtain ⟨thr₂, hthr₂, hzombie₂⟩ := hmono w thr₁ hthr₁
      exact ⟨thr₂, hthr₂, fun h => hzombie₂ (hzombie₁ h)⟩

theorem exitProcess (hrunning : s.Running p) (code : Int) :
    s.ParentThere p ∧ (∃ t, s.exitProcess p code = some t ∧ t.Inv) ∨
      ¬ s.ParentThere p ∧ s.exitProcess p code = none := by
  obtain ⟨proc, hp, -⟩ := hrunning
  have hgood := hinv.good p proc hp
  obtain ⟨s₁, hs₁, hinv₁, hprocess, hheld, hreturned, hzombies, -⟩ := hinv.foldlM_killThread (by
    intro u hu
    obtain ⟨thr, hthr, -⟩ := hgood.threads u hu
    exact ⟨thr, hthr⟩)
  obtain ⟨t, ht⟩ : ∃ t : System A, t = s₁.setProcess p { proc with code, zombie := true, children := none } := ⟨_, rfl⟩
  have hunfold : s.exitProcess p code = proc.parent.bind fun q => (t.process q).get.bind fun _ => some t := by
    rw [System.exitProcess, hp]
    show (proc.threads.foldlM killThread s).bind _ = _
    rw [hs₁, ht]
    rfl
  have hothers (x : A) (hx : x ≠ p) : t.process x = s.process x := by
    rw [ht, process_setProcess_of_ne hx, hprocess]
  cases hparent : proc.parent with
  | none =>
    refine .inr ⟨?_, ?_⟩
    · rintro ⟨proc', q, hp', hq, -⟩
      cases hp.symm.trans hp'
      rw [hparent] at hq
      cases hq
    · rw [hunfold, hparent]
      rfl
  | some q =>
    by_cases hthere : .process q ∉ s.returned ∨ 0 < s.held q
    · refine .inl ⟨⟨proc, q, hp, hparent, hthere⟩, t, ?_, ?_⟩
      · obtain ⟨parent, hq⟩ := hinv.exists_object (hgood.parent q hparent) hthere
        have hq' : ∃ parent', t.process q = .object parent' := by
          by_cases hqp : q = p
          · rw [hqp, ht]
            exact ⟨_, process_setProcess⟩
          · exact ⟨parent, (hothers q hqp).trans hq⟩
        obtain ⟨parent', hq'⟩ := hq'
        rw [hunfold, hparent]
        show (t.process q).get.bind _ = _
        rw [hq']
        rfl
      · have hp₁ : s₁.process p = .object proc := by rw [hprocess, hp]
        have hgood₁ := hinv₁.good p proc hp₁
        rw [ht]
        refine hinv₁.setObject hp₁ rfl rfl rfl ⟨fun _ => rfl, ?_, ?_, ?_, hgood₁.nodup, ?_⟩
        · exact ⟨fun _ => rfl, fun _ => rfl⟩
        · intro l hl
          cases hl
        · intro q' hq' hunused
          exact hgood₁.parent q' hq' ((edit_setProcess s₁ p _).unused hunused)
        · intro u hu
          obtain ⟨thr, hthr, howner, -⟩ := hgood₁.threads u hu
          obtain ⟨thr', hthr', hzombie⟩ := hzombies u hu
          cases hthr.symm.trans hthr'
          exact ⟨thr, hthr, howner, fun _ => hzombie⟩
    · rw [not_or, not_not, not_lt, Nat.le_zero] at hthere
      refine .inr ⟨?_, ?_⟩
      · rintro ⟨proc', q', hp', hq', hthere'⟩
        cases hp.symm.trans hp'
        cases hparent.symm.trans hq'
        obtain hnot | hpos := hthere'
        · exact hnot hthere.1
        · omega
      · have hfreed := (hinv.freed q).mpr hthere
        have hqp : q ≠ p := by
          rintro rfl
          rw [hp] at hfreed
          cases hfreed
        rw [hunfold, hparent]
        show (t.process q).get.bind _ = _
        rw [hothers q hqp, hfreed]
        rfl

theorem exitThread (hu : s.thread u = .object thr) (hp : s.process thr.process = .object proc)
    (hrunning : s.Running thr.process) (code : Int) :
    (proc.threads.length = 1 → s.ParentThere thr.process) ∧ (∃ t, s.exitThread u code = some t ∧ t.Inv) ∨
      ¬ (proc.threads.length = 1 → s.ParentThere thr.process) ∧ s.exitThread u code = none := by
  have hunfold : s.exitThread u code = if proc.threads.length = 1
      then (s.setThread u { thr with code }).exitProcess thr.process code
      else some ((s.setThread u { thr with code }).setThread u { thr with code, zombie := true }) := by
    rw [System.exitThread, hu]
    show ((s.process thr.process).get.bind _) = _
    rw [hp]
    rfl
  have hinv₁ : (s.setThread u { thr with code }).Inv := hinv.setThread hu rfl rfl id
  by_cases hlast : proc.threads.length = 1
  · rw [hunfold, if_pos hlast]
    obtain ⟨hthere, hdone⟩ | ⟨hgone, hnone⟩ := hinv₁.exitProcess hrunning code
    · exact .inl ⟨fun _ => hthere, hdone⟩
    · exact .inr ⟨fun h => hgone (h hlast), hnone⟩
  · rw [hunfold, if_neg hlast]
    exact .inl ⟨fun h => absurd h hlast, _, rfl, hinv₁.setThread thread_setThread rfl rfl fun _ => rfl⟩

omit hinv

include hinv

theorem not_sound_of_new {r : Ref A} (hnew : s.pidOf r = none) (hnot : r ∉ t.returned)
    (hpid : t.pidOf r = some pid) (hentries : t.processes = s.processes) : ¬ t.Sound := by
  intro hsound
  have hentry := hsound.entry r pid hpid hnot
  rw [hentries, hinv.entry, hnew] at hentry
  cases hentry.1

theorem not_sound_create (hp : s.process p = .unused) (hparent : ∀ q, parent = some q → s.Running q)
    (hfull : ¬ s.HasRoom) (hstep : s.create p true parent = some t) : ¬ t.Sound := by
  have hnone := firstFree_eq_none_iff.mpr hfull
  have hnew : s.pidOf (.process p) = none := by
    rw [pidOf, hp]
    rfl
  have hnot := (hinv.unused p hp).1
  cases parent with
  | none =>
    have hcreate : s.create p true none = some (s.setProcess p ⟨0, false, 0, 0, none, [], some []⟩) := by
      rw [create_root]
      apply processAddToList_full
      exact hnone
    cases hcreate.symm.trans hstep
    exact hinv.not_sound_of_new hnew hnot (pidOf_process process_setProcess) rfl
  | some q =>
    have hne := (hparent q rfl).ne hp
    obtain ⟨proc, l, hq, hl, -⟩ := hinv.children_of_running (hparent q rfl)
    have hcreate : s.create p true (some q) = some ((s.setProcess p ⟨0, false, 0, 1, some q, [], some []⟩).setProcess q
        { proc with children := some (l ++ [p]) }) := by
      rw [create_child hne hq hl]
      apply processAddToList_full
      exact hnone
    cases hcreate.symm.trans hstep
    exact hinv.not_sound_of_new hnew hnot
      (pidOf_process ((process_setProcess_of_ne (Ne.symm hne)).trans process_setProcess)) rfl

theorem not_sound_createThread (hu : s.thread u = .unused) (hrunning : s.Running p)
    (hfull : ¬ s.HasRoom) (hstep : s.createThread u p = some t) : ¬ t.Sound := by
  have hnone := firstFree_eq_none_iff.mpr hfull
  have hnew : s.pidOf (.thread u) = none := by
    rw [pidOf, hu]
    rfl
  have hnot : .thread u ∉ s.returned := by
    intro hmem
    rw [hinv.thread u hmem] at hu
    cases hu
  obtain ⟨proc, hp, -⟩ := hrunning
  have hcreate : s.createThread u p = some ((s.setThread u ⟨0, false, 0, p⟩).setProcess p
      { proc with threads := proc.threads ++ [u] }) := by
    rw [createThread_object hp]
    apply processAddToList_full
    exact hnone
  cases hcreate.symm.trans hstep
  exact hinv.not_sound_of_new hnew hnot (pidOf_thread thread_setThread) rfl

omit hinv

include hinv

theorem step (henabled : s.Enabled op) (hfits : s.Fits op) : ∃ t, s.step op = some t ∧ t.Inv := by
  cases op with
  | create p memory parent =>
    cases memory with
    | false => exact ⟨s, rfl, hinv⟩
    | true => exact hinv.create henabled.1 henabled.2 (hfits rfl)
  | createThread u p => exact hinv.createThread henabled.1 henabled.2 hfits
  | exitProcess p code =>
    obtain ⟨-, hdone⟩ | ⟨hgone, -⟩ := hinv.exitProcess henabled code
    · exact hdone
    · exact absurd hfits hgone
  | exitThread u code =>
    obtain ⟨thr, hu, -, hrunning⟩ := henabled
    obtain ⟨proc, hp, halive⟩ := hrunning
    obtain ⟨-, hdone⟩ | ⟨hgone, -⟩ := hinv.exitThread hu hp ⟨proc, hp, halive⟩ code
    · exact hdone
    · exact absurd (hfits thr proc hu hp) hgone
  | wait p id nohang =>
    obtain ⟨res, t, hwait, hinvt⟩ := hinv.sysWait henabled id nohang
    refine ⟨t, ?_, hinvt⟩
    rw [System.step, hwait]
    rfl
  | getById pid => exact hinv.processGetById pid
  | free p => exact hinv.release henabled

theorem fits_of_sound (henabled : s.Enabled op) (hstep : s.step op = some t) (hsound : t.Sound) : s.Fits op := by
  cases op with
  | create p memory parent =>
    intro hmemory
    obtain rfl := hmemory
    by_contra hfull
    exact hinv.not_sound_create henabled.1 henabled.2 hfull hstep hsound
  | createThread u p =>
    by_contra hfull
    exact hinv.not_sound_createThread henabled.1 henabled.2 hfull hstep hsound
  | exitProcess p code =>
    obtain ⟨hthere, -⟩ | ⟨-, hnone⟩ := hinv.exitProcess henabled code
    · exact hthere
    · cases hnone.symm.trans hstep
  | exitThread u code =>
    intro thr proc hu hp
    obtain ⟨thr', hu', -, hrunning⟩ := henabled
    cases hu.symm.trans hu'
    obtain ⟨hthere, -⟩ | ⟨-, hnone⟩ := hinv.exitThread hu hp hrunning code
    · exact hthere
    · cases hnone.symm.trans hstep
  | wait p id nohang | getById pid | free p => trivial

end Inv

def Allowed (s : System A) (op : ProcessOp A) : Prop := s.Enabled op ∧ s.Fits op

theorem inv_of_run {ops : List (ProcessOp A)} (hrun : Run step Allowed init ops s) : s.Inv := by
  refine hrun.invariant Inv ?_ Inv.init
  rintro s op t hinv ⟨henabled, hfits⟩ hstep
  obtain ⟨t', hstep', hinv'⟩ := hinv.step henabled hfits
  cases hstep.symm.trans hstep'
  exact hinv'

/-- After calls that fit the process tree is sound, and the next call keeps it sound if and only if it fits. -/
theorem process_tree {ops : List (ProcessOp A)} (hrun : Run step Allowed init ops s) :
    s.Sound ∧ ∀ op, s.Enabled op → (s.Fits op ↔ ∃ t, s.step op = some t ∧ t.Sound) := by
  have hinv := inv_of_run hrun
  refine ⟨hinv.sound, fun op henabled => ⟨fun hfits => ?_, ?_⟩⟩
  · obtain ⟨t, hstep, hinvt⟩ := hinv.step henabled hfits
    exact ⟨t, hstep, hinvt.sound⟩
  · rintro ⟨t, hstep, hsound⟩
    exact hinv.fits_of_sound henabled hstep hsound

omit [DecidableEq A] in
theorem get_eq_some_iff {α : Type*} {b : Block α} {x : α} : b.get = some x ↔ b = .object x := by
  cases b with
  | object y => rw [Block.get, some.injEq, Block.object.injEq]
  | unused | freed =>
    constructor
    · intro h
      cases h
    · intro h
      cases h

instance (s : System A) (p : A) : Decidable (s.Running p) :=
  decidable_of_iff (∃ proc ∈ (s.process p).get, proc.zombie = false) (by simp only [mem_def, get_eq_some_iff]; rfl)

instance (s : System A) : Decidable s.HasRoom :=
  decidable_of_iff (firstFree s.processes ≠ none) (by rw [Ne, firstFree_eq_none_iff, not_not])

instance (s : System A) (p : A) : Decidable (s.ParentThere p) :=
  decidable_of_iff (∃ proc ∈ (s.process p).get, ∃ q ∈ proc.parent,
      (∀ r ∈ s.returned, ¬ .process q = r) ∨ 0 < s.held q) (by
    simp only [forall_mem_ne, mem_def, get_eq_some_iff, ParentThere, exists_and_left])

instance (s : System A) (op : ProcessOp A) : Decidable (s.Enabled op) :=
  match op with
  | .create p _ parent => inferInstanceAs (Decidable (s.process p = .unused ∧ ∀ q ∈ parent, s.Running q))
  | .createThread t p => inferInstanceAs (Decidable (s.thread t = .unused ∧ s.Running p))
  | .exitProcess p _ => inferInstanceAs (Decidable (s.Running p))
  | .exitThread t _ => decidable_of_iff (∃ thr ∈ (s.thread t).get, thr.zombie = false ∧ s.Running thr.process) (by
      simp only [mem_def, get_eq_some_iff]
      rfl)
  | .wait p _ _ => inferInstanceAs (Decidable (s.Running p))
  | .getById _ => .isTrue trivial
  | .free p => inferInstanceAs (Decidable (0 < s.held p))

instance (s : System A) (op : ProcessOp A) : Decidable (s.Fits op) :=
  match op with
  | .create _ memory _ => inferInstanceAs (Decidable (memory = true → s.HasRoom))
  | .createThread _ _ => inferInstanceAs (Decidable s.HasRoom)
  | .exitProcess p _ => inferInstanceAs (Decidable (s.ParentThere p))
  | .exitThread t _ => decidable_of_iff (∀ thr ∈ (s.thread t).get, ∀ proc ∈ (s.process thr.process).get,
      proc.threads.length = 1 → s.ParentThere thr.process) (by
        simp only [mem_def, get_eq_some_iff]
        exact ⟨fun h thr proc hthr hproc => h thr hthr proc hproc, fun h thr hthr proc hproc => h thr proc hthr hproc⟩)
  | .wait _ _ _ => .isTrue trivial
  | .getById _ => .isTrue trivial
  | .free _ => .isTrue trivial

instance (s : System A) (op : ProcessOp A) : Decidable (s.Allowed op) := by
  unfold Allowed
  infer_instance

/-- A parent and a child with a thread each; the child exits and is waited for. -/
theorem process_tree_pair : ∃ s : System Nat, Run step Allowed init
    [.create 0 true none, .createThread 0 0, .create 1 true (some 0), .createThread 1 1, .exitProcess 1 7,
      .wait 0 (-1) false] s ∧ s.Sound ∧ s.returned = [.process 1] ∧ s.process 1 = .freed := by
  exact exists_run_of_replay_imp (fun s => s.returned = [.process 1] ∧ s.process 1 = .freed) (by decide +kernel)
    fun s hrun hend => ⟨(process_tree hrun).1, hend⟩

/-- The first numbers are taken by processes without parents. -/
structure Filled (s : System Nat) (n : Nat) : Prop where
  processes : ∀ pid, s.processes pid = if pid < n then some (.process pid) else none
  unused : ∀ x, n ≤ x → s.process x = .unused
  returned : s.returned = []

theorem Filled.create {s : System Nat} {n : Nat} (hfilled : s.Filled n) (hlt : n < maxProcesses) :
    ∃ t, s.create n true none = some t ∧ t.Filled (n + 1) := by
  have hfirst : firstFree s.processes = some n := by
    rw [firstFree, find?_range_eq_some]
    refine ⟨?_, mem_range.mpr hlt, fun j hj => ?_⟩
    · rw [hfilled.processes, if_neg (lt_irrefl n)]
      rfl
    · rw [hfilled.processes, if_pos hj]
      rfl
  refine ⟨_, (create_root n).trans (processAddToList_process process_setProcess hfirst), ?_, ?_, hfilled.returned⟩
  · intro pid
    show update s.processes n _ pid = _
    by_cases hpid : pid = n
    · rw [hpid, update_self, if_pos (Nat.lt_succ_self n)]
    · rw [update_of_ne hpid, hfilled.processes]
      exact if_congr (by omega) rfl rfl
  · intro x hx
    have hne : x ≠ n := by omega
    rw [process_setProcess_of_ne hne]
    exact (process_setProcess_of_ne hne).trans (hfilled.unused x (by omega))

theorem Filled.run {s : System Nat} {n : Nat} (hfilled : s.Filled n) (k : Nat) (hle : n + k ≤ maxProcesses) :
    ∃ ops t, Run step Allowed s ops t ∧ t.Filled (n + k) := by
  induction k generalizing s n with
  | zero => exact ⟨[], s, .nil s, hfilled⟩
  | succ k ih =>
    obtain ⟨s₁, hstep, hfilled₁⟩ := hfilled.create (by omega)
    obtain ⟨ops, t, hrun, hfilled'⟩ := ih hfilled₁ (by omega)
    have hroom : s.HasRoom := ⟨n, by omega, by rw [hfilled.processes, if_neg (lt_irrefl n)]⟩
    have hallowed : s.Allowed (.create n true none) := by
      refine ⟨⟨hfilled.unused n le_rfl, fun q hq => ?_⟩, fun _ => hroom⟩
      cases hq
    refine ⟨_, t, .cons hallowed hstep hrun, ?_⟩
    rw [Nat.add_succ, ← Nat.succ_add]
    exact hfilled'

theorem Filled.init : (System.init : System Nat).Filled 0 := ⟨fun _ => rfl, fun _ _ => rfl, rfl⟩

/-- A child outlives its parent, which is waited for, and exits. And a process is created when the table is full. -/
theorem orphan_and_full_table :
    (∃ s : System Nat, Run step Allowed init [.create 0 true none, .create 1 true (some 0), .create 2 true (some 1),
        .exitProcess 1 0, .wait 0 (-1) false] s ∧
      s.Enabled (.exitProcess 2 0) ∧ (s.process 2).get.map (·.parent) = some (some 1) ∧ s.process 1 = .freed ∧
      (s.step (.exitProcess 2 0)).isNone) ∧
    ∃ ops, ∃ s t : System Nat, Run step Allowed init ops s ∧ s.Enabled (.create maxProcesses true none) ∧
      s.step (.create maxProcesses true none) = some t ∧ t.pidOf (.process 0) = some 0 ∧
      t.pidOf (.process maxProcesses) = some 0 ∧ t.returned = [] := by
  constructor
  · apply exists_run_of_replay
    decide +kernel
  · obtain ⟨ops, s, hrun, hfilled⟩ := Filled.init.run maxProcesses (Nat.zero_add _).le
    rw [Nat.zero_add] at hfilled
    have hpos : 0 < maxProcesses := by
      rw [maxProcesses]
      exact Nat.succ_pos _
    have hfull : ¬ s.HasRoom := by
      rintro ⟨pid, hlt, hfree⟩
      rw [hfilled.processes, if_pos hlt] at hfree
      cases hfree
    have hcreate : s.create maxProcesses true none =
        some (s.setProcess maxProcesses ⟨0, false, 0, 0, none, [], some []⟩) := by
      rw [create_root]
      apply processAddToList_full
      exact firstFree_eq_none_iff.mpr hfull
    have hfirst : s.processes 0 = some (.process 0) := by rw [hfilled.processes, if_pos hpos]
    refine ⟨ops, s, _, hrun, ⟨hfilled.unused _ le_rfl, fun q hq => ?_⟩, hcreate, ?_,
      pidOf_process process_setProcess, hfilled.returned⟩
    · cases hq
    · rw [pidOf_eq_process (process_setProcess_of_ne hpos.ne)]
      exact (((inv_of_run hrun).entry 0 _).mp hfirst).1

end Kairax.Proc.Tree.System
