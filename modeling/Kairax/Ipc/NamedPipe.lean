import Kairax.Ipc.Pipe

/-!
# Named pipes

The first open makes the pipe, every open counts the file as a reader, a writer or both, and the close that leaves
neither frees the pipe. An open that finds nobody at the other end sleeps. The counters are right after any history.
The lock is not: an open that must not block returns from under it.
-/

namespace Kairax.Ipc

open Lib List Function
open Option (bind_some map_some)

/-- A file on the named pipe, with the pipe in its `private_data`. Its open may still sleep. -/
structure FifoFile where
  id : Nat
  pipe : Nat
  flags : BitVec 32
  asleep : Bool
  deriving DecidableEq

/-- `file_allow_read` -/
def FifoFile.allowRead (f : FifoFile) : Bool := f.flags &&& 0b11 ≠ 1

/-- `file_allow_write` -/
def FifoFile.allowWrite (f : FifoFile) : Bool := f.flags &&& 0b11 ≠ 0

/-- `FILE_FLAG_NONBLOCK` -/
def FifoFile.nonblock (f : FifoFile) : Bool := f.flags &&& 0o4000 = 0o4000

/-- The inode, the pipes in memory by address, and the files. -/
structure Fifo where
  privateData : Option Nat
  pipes : Nat → Option Pipe
  files : List FifoFile

def Fifo.start : Fifo := ⟨none, fun _ => none, []⟩

/-- `free_pipe` -/
def freePipe (pipes : Nat → Option Pipe) (p : Nat) : Option (Nat → Option Pipe) :=
  (pipes p).map fun pipe =>
    update pipes p (if pipe.refCount - 1 ≤ 0 then none else some { pipe with refCount := pipe.refCount - 1 })

def Pipe.enter (pipe : Pipe) (f : FifoFile) : Pipe :=
  { pipe with
    refCount := pipe.refCount + 1
    nreadfds := pipe.nreadfds + f.allowRead.toNat
    nwritefds := pipe.nwritefds + f.allowWrite.toNat }

def Pipe.leave (pipe : Pipe) (f : FifoFile) : Pipe :=
  { pipe with
    nwritefds := pipe.nwritefds - f.allowWrite.toNat
    nreadfds := pipe.nreadfds - f.allowRead.toNat }

namespace Fifo

/-- The pipe of the inode, which the first open makes at an address that the allocator chooses. -/
def pipeOf (s : Fifo) (fresh : Nat) (buffer : Buf) : Option (Nat × Pipe) :=
  match s.privateData with
  | some p => (s.pipes p).map fun pipe => (p, pipe)
  | none =>
    match s.pipes fresh with
    | none => some (fresh, { Pipe.new buffer with checkEnds := 1, refCount := 1 })
    | some _ => none

def attach (s : Fifo) (f : FifoFile) (pipe : Pipe) (locked : Bool) : Fifo :=
  ⟨some f.pipe, update s.pipes f.pipe (some { pipe.enter f with locked := locked }), f :: s.files⟩

/-- `pipe_bootstrap_open` up to where it returns or sleeps. A lock that is held is waited for without end. -/
def bootstrapOpen (s : Fifo) (f : FifoFile) (pipe : Pipe) : Option (Option Int × Fifo) :=
  if pipe.locked then none
  else if (f.allowRead ∧ (pipe.enter f).nwritefds = 0) ∨ (f.allowWrite ∧ (pipe.enter f).nreadfds = 0) then
    if f.nonblock then some (some (if f.allowRead then 0 else -enxio), s.attach f pipe true)
    else some (none, s.attach { f with asleep := true } pipe false)
  else some (some 0, s.attach f pipe false)

/-- `pipe_namedfile_close` -/
def namedfileClose (s : Fifo) (f : FifoFile) : Option Fifo :=
  (s.pipes f.pipe).bind fun pipe =>
    let left := pipe.leave f
    let pipes := update s.pipes f.pipe (some left)
    if left.nwritefds = 0 ∧ left.nreadfds = 0 then
      ((freePipe pipes f.pipe).bind (freePipe · f.pipe)).map fun pipes => ⟨none, pipes, s.files.erase f⟩
    else (freePipe pipes f.pipe).map fun pipes => ⟨s.privateData, pipes, s.files.erase f⟩

/-- `file_open_ex` from where the file exists. A file whose open fails is closed. -/
def openFile (s : Fifo) (f : FifoFile) (pipe : Pipe) : Option Fifo :=
  (s.bootstrapOpen f pipe).bind fun (rc, s) =>
    match rc with
    | none => some s
    | some rc => if rc ≠ 0 then s.namedfileClose f else some s

end Fifo

inductive FifoOp
  | open (id : Nat) (flags : BitVec 32) (fresh : Nat) (buffer : Buf)
  | wake (id : Nat) (signal : Bool)
  | close (id : Nat)

namespace Fifo

/-- A call enters, or an open that sleeps goes on. A signal makes it fail, so its file is closed. -/
def step (s : Fifo) : FifoOp → Option Fifo
  | .open id flags fresh buffer =>
    if s.files.any (·.id = id) then none
    else (s.pipeOf fresh buffer).bind fun (p, pipe) => s.openFile ⟨id, p, flags, false⟩ pipe
  | .wake id signal =>
    (s.files.find? fun f => f.id = id ∧ f.asleep = true).bind fun f =>
      if signal then s.namedfileClose f
      else (s.pipes f.pipe).bind fun pipe =>
        if pipe.locked then none else some { s with files := { f with asleep := false } :: s.files.erase f }
  | .close id => (s.files.find? fun f => f.id = id ∧ f.asleep = false).bind s.namedfileClose

def Unlocked (s : Fifo) : Prop := ∀ p pipe, s.pipes p = some pipe → pipe.locked = false

/-- A file that must not block finds somebody at the other end, or is a writer that finds nobody at all. -/
def Welcome (s : Fifo) (f : FifoFile) : Prop :=
  f.nonblock → (f.allowWrite = false → ∃ g ∈ s.files, g.allowWrite) ∧
    (f.allowRead = false → s.files = [] ∨ ∃ g ∈ s.files, g.allowRead)

def Legal (s : Fifo) : FifoOp → Prop
  | .open id flags _ _ => s.Welcome ⟨id, 0, flags, false⟩
  | _ => True

instance decidableWelcome (s : Fifo) (f : FifoFile) : Decidable (s.Welcome f) := by
  unfold Welcome
  infer_instance

instance decidableLegal (s : Fifo) (op : FifoOp) : Decidable (s.Legal op) := by
  cases op <;> (unfold Legal; infer_instance)

structure Idle (s : Fifo) : Prop where
  inode : s.privateData = none
  pipes : ∀ p, s.pipes p = none
  files : s.files = []

/-- There is one pipe, all files are on it, and its counters agree with them. -/
structure Busy (s : Fifo) (p : Nat) (pipe : Pipe) : Prop where
  inode : s.privateData = some p
  alive : s.pipes p = some pipe
  others : ∀ q, q ≠ p → s.pipes q = none
  files : ∀ f ∈ s.files, f.pipe = p
  nonempty : s.files ≠ []
  readers : pipe.nreadfds = s.files.countP (·.allowRead)
  writers : pipe.nwritefds = s.files.countP (·.allowWrite)
  refs : pipe.refCount = s.files.length + 1

def Sound (s : Fifo) : Prop := s.Idle ∨ ∃ p pipe, s.Busy p pipe

section Counters

variable {s s' : Fifo} {f : FifoFile} {p : Nat} {pipe : Pipe} {files : List FifoFile}

theorem allow_or (f : FifoFile) : f.allowRead = true ∨ f.allowWrite = true := by
  by_cases hread : f.flags &&& 0b11 = 1
  · exact .inr (decide_eq_true (by rw [hread]; decide))
  · exact .inl (decide_eq_true hread)

theorem eq_nil_iff_countP : files = [] ↔ files.countP (·.allowWrite) = 0 ∧ files.countP (·.allowRead) = 0 := by
  constructor
  · rintro rfl
    exact ⟨rfl, rfl⟩
  · rintro ⟨hwrite, hread⟩
    rw [countP_eq_zero] at hwrite hread
    rw [eq_nil_iff_forall_not_mem]
    intro f hf
    cases allow_or f with
    | inl h => exact hread f hf h
    | inr h => exact hwrite f hf h

theorem countP_cons_toNat (P : FifoFile → Bool) : (f :: files).countP P = files.countP P + (P f).toNat := by
  rw [countP_cons]
  cases P f <;> rfl

theorem countP_erase_of_mem (hf : f ∈ files) (P : FifoFile → Bool) :
    files.countP P = (files.erase f).countP P + (P f).toNat := by
  rw [(perm_cons_erase hf).countP_eq, countP_cons_toNat]

theorem Idle.unlocked (hidle : s.Idle) : s.Unlocked := by
  intro p pipe hpipe
  rw [hidle.pipes] at hpipe
  cases hpipe

theorem Sound.busy (hs : s.Sound) (hf : f ∈ s.files) : ∃ pipe, s.Busy f.pipe pipe := by
  obtain hidle | ⟨p, pipe, hbusy⟩ := hs
  · rw [hidle.files] at hf
    cases hf
  · exact ⟨pipe, hbusy.files f hf ▸ hbusy⟩

theorem Busy.unlocked_iff (hbusy : s.Busy p pipe) : s.Unlocked ↔ pipe.locked = false := by
  constructor
  · intro hunlocked
    exact hunlocked p pipe hbusy.alive
  · intro hfree q pipe' hpipe'
    by_cases hq : q = p
    · rw [hq, hbusy.alive] at hpipe'
      cases hpipe'
      exact hfree
    · rw [hbusy.others q hq] at hpipe'
      cases hpipe'

/-- What an open finds: the pipe of the inode, or a new one. -/
structure Finds (s : Fifo) (p : Nat) (pipe : Pipe) : Prop where
  others : ∀ q, q ≠ p → s.pipes q = none
  files : ∀ f ∈ s.files, f.pipe = p
  readers : pipe.nreadfds = s.files.countP (·.allowRead)
  writers : pipe.nwritefds = s.files.countP (·.allowWrite)
  refs : pipe.refCount = s.files.length + 1
  locked : s.Unlocked → pipe.locked = false

theorem Sound.finds (hs : s.Sound) {fresh : Nat} {buffer : Buf} (hpipe : s.pipeOf fresh buffer = some (p, pipe)) :
    s.Finds p pipe := by
  obtain hidle | ⟨p', pipe', hbusy⟩ := hs
  · rw [pipeOf, hidle.inode] at hpipe
    rw [hidle.pipes] at hpipe
    cases hpipe
    have hfiles := hidle.files
    exact ⟨fun q _ => hidle.pipes q, by simp [hfiles], by simp [hfiles, Pipe.new], by simp [hfiles, Pipe.new],
      by simp [hfiles], fun _ => rfl⟩
  · rw [pipeOf, hbusy.inode] at hpipe
    dsimp only at hpipe
    rw [hbusy.alive] at hpipe
    cases hpipe
    exact { hbusy with locked := fun hunlocked => hunlocked _ _ hbusy.alive }

theorem Sound.pipeOf_eq (hs : s.Sound) (fresh : Nat) (buffer : Buf) :
    ∃ p pipe, s.pipeOf fresh buffer = some (p, pipe) := by
  obtain hidle | ⟨p, pipe, hbusy⟩ := hs
  · rw [pipeOf, hidle.inode]
    rw [hidle.pipes]
    exact ⟨_, _, rfl⟩
  · rw [pipeOf, hbusy.inode]
    dsimp only
    rw [hbusy.alive]
    exact ⟨_, _, rfl⟩

theorem Finds.attach (hfinds : s.Finds f.pipe pipe) (locked : Bool) :
    (s.attach f pipe locked).Busy f.pipe { pipe.enter f with locked := locked } where
  inode := rfl
  alive := update_self ..
  others q hq := (update_of_ne hq ..).trans (hfinds.others q hq)
  files g hg := by
    cases hg with
    | head => rfl
    | tail _ hg => exact hfinds.files g hg
  nonempty := cons_ne_nil _ _
  readers := by
    show pipe.nreadfds + f.allowRead.toNat = _
    rw [Fifo.attach, countP_cons_toNat, hfinds.readers, Int.natCast_add]
  writers := by
    show pipe.nwritefds + f.allowWrite.toNat = _
    rw [Fifo.attach, countP_cons_toNat, hfinds.writers, Int.natCast_add]
  refs := by
    show pipe.refCount + 1 = _
    rw [Fifo.attach, hfinds.refs]
    rfl

theorem Busy.leave (hbusy : s.Busy f.pipe pipe) (hf : f ∈ s.files) :
    (pipe.leave f).nreadfds = (s.files.erase f).countP (·.allowRead) ∧
      (pipe.leave f).nwritefds = (s.files.erase f).countP (·.allowWrite) ∧
      (pipe.leave f).refCount = (s.files.erase f).length + 2 := by
  have hread := countP_erase_of_mem hf (·.allowRead)
  have hwrite := countP_erase_of_mem hf (·.allowWrite)
  have hlength := length_erase_add_one hf
  refine ⟨?_, ?_, ?_⟩
  · show pipe.nreadfds - f.allowRead.toNat = _
    rw [hbusy.readers]
    omega
  · show pipe.nwritefds - f.allowWrite.toNat = _
    rw [hbusy.writers]
    omega
  · show pipe.refCount = _
    rw [hbusy.refs]
    omega

theorem freePipe_update (pipes : Nat → Option Pipe) (p : Nat) (pipe : Pipe) :
    freePipe (update pipes p (some pipe)) p = some (update pipes p
      (if pipe.refCount - 1 ≤ 0 then none else some { pipe with refCount := pipe.refCount - 1 })) := by
  rw [freePipe, update_self, map_some, update_idem]

theorem Busy.close_last (hbusy : s.Busy f.pipe pipe) (hf : f ∈ s.files) (hlast : s.files.erase f = []) :
    ∃ s', s.namedfileClose f = some s' ∧ s'.Idle := by
  obtain ⟨hread, hwrite, hrefs⟩ := hbusy.leave hf
  rw [hlast] at hread hwrite hrefs
  have hfirst : ¬ (pipe.leave f).refCount - 1 ≤ 0 := by
    rw [hrefs]
    decide
  have hsecond : (pipe.leave f).refCount - 1 - 1 ≤ 0 := by
    rw [hrefs]
    decide
  rw [namedfileClose, hbusy.alive, bind_some, if_pos ⟨hwrite, hread⟩, freePipe_update, if_neg hfirst,
    bind_some, freePipe_update, if_pos hsecond]
  refine ⟨_, rfl, rfl, fun q => ?_, hlast⟩
  by_cases hq : q = f.pipe
  · rw [hq]
    exact update_self ..
  · exact (update_of_ne hq ..).trans (hbusy.others q hq)

theorem Busy.close_rest (hbusy : s.Busy f.pipe pipe) (hf : f ∈ s.files) (hrest : s.files.erase f ≠ []) :
    ∃ s', s.namedfileClose f = some s' ∧
      s'.Busy f.pipe { pipe.leave f with refCount := (pipe.leave f).refCount - 1 } := by
  obtain ⟨hread, hwrite, hrefs⟩ := hbusy.leave hf
  have hused : ¬ ((pipe.leave f).nwritefds = 0 ∧ (pipe.leave f).nreadfds = 0) := by
    rw [hread, hwrite, Int.natCast_eq_zero, Int.natCast_eq_zero, ← eq_nil_iff_countP]
    exact hrest
  have hkept : ¬ (pipe.leave f).refCount - 1 ≤ 0 := by omega
  rw [namedfileClose, hbusy.alive, bind_some, if_neg hused, freePipe_update, if_neg hkept]
  refine ⟨_, rfl, hbusy.inode, update_self .., fun q hq => (update_of_ne hq ..).trans (hbusy.others q hq),
    fun g hg => hbusy.files g (mem_of_mem_erase hg), hrest, hread, hwrite, ?_⟩
  dsimp only
  omega

theorem Sound.close (hs : s.Sound) (hf : f ∈ s.files) :
    ∃ s', s.namedfileClose f = some s' ∧ s'.Sound ∧ (s.Unlocked → s'.Unlocked) := by
  obtain ⟨pipe, hbusy⟩ := hs.busy hf
  by_cases hlast : s.files.erase f = []
  · obtain ⟨s', hclose, hidle⟩ := hbusy.close_last hf hlast
    exact ⟨s', hclose, .inl hidle, fun _ => hidle.unlocked⟩
  · obtain ⟨s', hclose, hbusy'⟩ := hbusy.close_rest hf hlast
    exact ⟨s', hclose, .inr ⟨_, _, hbusy'⟩, fun hunlocked => hbusy'.unlocked_iff.mpr (hbusy.unlocked_iff.mp hunlocked)⟩

theorem Finds.missing_iff (hfinds : s.Finds f.pipe pipe) :
    ((f.allowRead ∧ (pipe.enter f).nwritefds = 0) ∨ (f.allowWrite ∧ (pipe.enter f).nreadfds = 0)) ↔
      (f.allowWrite = false ∧ ∀ g ∈ s.files, ¬ g.allowWrite) ∨
      (f.allowRead = false ∧ ∀ g ∈ s.files, ¬ g.allowRead) := by
  show (f.allowRead = true ∧ pipe.nwritefds + f.allowWrite.toNat = 0) ∨
    (f.allowWrite = true ∧ pipe.nreadfds + f.allowRead.toNat = 0) ↔ _
  rw [hfinds.readers, hfinds.writers]
  cases hread : f.allowRead with
  | false =>
    have hwrite := (allow_or f).resolve_left (by simp [hread])
    simp [hwrite]
  | true =>
    cases hwrite : f.allowWrite with
    | false => simp
    | true =>
      simp only [Bool.toNat_true, Bool.true_eq_false, false_and, or_self, iff_false]
      omega

theorem Finds.open (hfinds : s.Finds f.pipe pipe) (hunlocked : s.Unlocked) :
    ∃ s', s.openFile f pipe = some s' ∧ s'.Sound ∧ (s'.Unlocked ↔ s.Welcome f) := by
  rw [openFile, bootstrapOpen, hfinds.locked hunlocked, if_neg Bool.false_ne_true]
  by_cases hmissing : (f.allowRead ∧ (pipe.enter f).nwritefds = 0) ∨ (f.allowWrite ∧ (pipe.enter f).nreadfds = 0)
  · rw [if_pos hmissing]
    rw [hfinds.missing_iff] at hmissing
    by_cases hnonblock : f.nonblock = true
    · have hbusy := hfinds.attach true
      have hheld : ¬ (s.attach f pipe true).Unlocked := fun h => Bool.false_ne_true (hbusy.unlocked_iff.mp h).symm
      split_ifs with hread
      · refine ⟨_, rfl, .inr ⟨_, _, hbusy⟩, iff_of_false hheld fun hwelcome => ?_⟩
        obtain ⟨hwrite, hnone⟩ := hmissing.resolve_right fun h => Bool.false_ne_true (h.1.symm.trans hread)
        obtain ⟨g, hg, hgwrite⟩ := (hwelcome hnonblock).1 hwrite
        exact hnone g hg hgwrite
      · have hwrite : f.allowWrite = true := (allow_or f).resolve_left hread
        obtain ⟨hread, hnone⟩ := hmissing.resolve_left fun h => Bool.false_ne_true (h.1.symm.trans hwrite)
        have hmem : f ∈ (s.attach f pipe true).files := mem_cons_self
        have herase : (s.attach f pipe true).files.erase f = s.files := erase_cons_head ..
        by_cases hempty : s.files = []
        · obtain ⟨s', hclose, hidle⟩ := hbusy.close_last hmem (herase.trans hempty)
          refine ⟨s', hclose, .inl hidle, iff_of_true hidle.unlocked fun _ => ⟨fun h => ?_, fun _ => .inl hempty⟩⟩
          exact absurd (h.symm.trans hwrite) Bool.false_ne_true
        · obtain ⟨s', hclose, hbusy'⟩ := hbusy.close_rest hmem (herase ▸ hempty)
          refine ⟨s', hclose, .inr ⟨_, _, hbusy'⟩, iff_of_false (fun h => ?_) fun hwelcome => ?_⟩
          · exact Bool.false_ne_true (hbusy'.unlocked_iff.mp h).symm
          · obtain ⟨g, hg, hgread⟩ := ((hwelcome hnonblock).2 hread).resolve_left hempty
            exact hnone g hg hgread
    · have hsleeps : s.Finds ({ f with asleep := true } : FifoFile).pipe pipe := hfinds
      have hbusy := hsleeps.attach false
      rw [if_neg hnonblock]
      exact ⟨_, rfl, .inr ⟨_, _, hbusy⟩, iff_of_true (hbusy.unlocked_iff.mpr rfl) fun h => absurd h hnonblock⟩
  · have hbusy := hfinds.attach false
    rw [if_neg hmissing]
    rw [hfinds.missing_iff, not_or] at hmissing
    refine ⟨_, rfl, .inr ⟨_, _, hbusy⟩, iff_of_true (hbusy.unlocked_iff.mpr rfl) fun _ =>
      ⟨fun hwrite => ?_, fun hread => ?_⟩⟩
    · have hsome := not_and.mp hmissing.1 hwrite
      simpa using hsome
    · have hsome := not_and.mp hmissing.2 hread
      exact .inr (by simpa using hsome)

theorem Busy.awake (hbusy : s.Busy p pipe) (hf : f ∈ s.files) :
    Busy { s with files := { f with asleep := false } :: s.files.erase f } p pipe where
  inode := hbusy.inode
  alive := hbusy.alive
  others := hbusy.others
  files g hg := by
    cases hg with
    | head => exact hbusy.files f hf
    | tail _ hg => exact hbusy.files g (mem_of_mem_erase hg)
  nonempty := cons_ne_nil _ _
  readers := by
    rw [hbusy.readers, countP_erase_of_mem hf, countP_cons_toNat]
    rfl
  writers := by
    rw [hbusy.writers, countP_erase_of_mem hf, countP_cons_toNat]
    rfl
  refs := by
    rw [hbusy.refs, length_cons, length_erase_add_one hf]

def Possible (s : Fifo) : FifoOp → Prop
  | .open id _ _ _ => ∀ f ∈ s.files, f.id ≠ id
  | .wake id _ => ∃ f ∈ s.files, f.id = id ∧ f.asleep = true
  | .close id => ∃ f ∈ s.files, f.id = id ∧ f.asleep = false

theorem possible_of_step {op : FifoOp} (hstep : s.step op = some s') : s.Possible op := by
  cases op with
  | «open» id flags fresh buffer =>
    rw [step] at hstep
    split_ifs at hstep with hused
    intro f hf hid
    exact hused (any_eq_true.mpr ⟨f, hf, decide_eq_true hid⟩)
  | wake id signal | close id =>
    obtain ⟨f, hfind, -⟩ := Option.bind_eq_some_iff.mp hstep
    exact ⟨f, mem_of_find?_eq_some hfind, by simpa using find?_some hfind⟩

theorem find_of_mem {P : FifoFile → Prop} [DecidablePred P] (hf : ∃ f ∈ files, P f) :
    ∃ f ∈ files, files.find? (fun f => P f) = some f := by
  obtain ⟨f, hf, hP⟩ := hf
  have hsome : (files.find? fun f => P f).isSome = true := find?_isSome.mpr ⟨f, hf, decide_eq_true hP⟩
  obtain ⟨g, hg⟩ := Option.isSome_iff_exists.mp hsome
  exact ⟨g, mem_of_find?_eq_some hg, hg⟩

theorem Sound.step (hs : s.Sound) (hunlocked : s.Unlocked) {op : FifoOp} (hpossible : s.Possible op) :
    ∃ s', s.step op = some s' ∧ s'.Sound ∧ (s'.Unlocked ↔ s.Legal op) := by
  cases op with
  | «open» id flags fresh buffer =>
    obtain ⟨p, pipe, hpipe⟩ := hs.pipeOf_eq fresh buffer
    have hfree : ¬ s.files.any (·.id = id) = true := by
      rw [any_eq_true]
      rintro ⟨f, hf, hid⟩
      exact hpossible f hf (of_decide_eq_true hid)
    have hfinds : s.Finds (⟨id, p, flags, false⟩ : FifoFile).pipe pipe := hs.finds hpipe
    rw [Fifo.step, if_neg hfree, hpipe]
    exact hfinds.open hunlocked
  | wake id signal =>
    obtain ⟨f, hf, hfind⟩ := find_of_mem hpossible
    rw [Fifo.step, hfind, bind_some]
    cases signal with
    | true =>
      obtain ⟨s', hclose, hs', hkeep⟩ := hs.close hf
      exact ⟨s', hclose, hs', iff_of_true (hkeep hunlocked) trivial⟩
    | false =>
      obtain ⟨pipe, hbusy⟩ := hs.busy hf
      have hawake := hbusy.awake hf
      rw [hbusy.alive, bind_some, hunlocked _ _ hbusy.alive]
      exact ⟨_, rfl, .inr ⟨_, _, hawake⟩, iff_of_true hunlocked trivial⟩
  | close id =>
    obtain ⟨f, hf, hfind⟩ := find_of_mem hpossible
    obtain ⟨s', hclose, hs', hkeep⟩ := hs.close hf
    rw [Fifo.step, hfind]
    exact ⟨s', hclose, hs', iff_of_true (hkeep hunlocked) trivial⟩

end Counters

/-- The counters of every pipe agree with the files that are open on it, and a pipe exists as long as there is
one. -/
structure Balanced (s : Fifo) : Prop where
  readers : ∀ p pipe, s.pipes p = some pipe → pipe.nreadfds = s.files.countP fun f => f.pipe = p ∧ f.allowRead
  writers : ∀ p pipe, s.pipes p = some pipe → pipe.nwritefds = s.files.countP fun f => f.pipe = p ∧ f.allowWrite
  refs : ∀ p pipe, s.pipes p = some pipe → s.privateData = some p ∧ pipe.refCount = s.files.countP (·.pipe = p) + 1
  freed : ∀ p, s.pipes p = none ↔
    s.files.countP (fun f => f.pipe = p ∧ f.allowRead) = 0 ∧ s.files.countP (fun f => f.pipe = p ∧ f.allowWrite) = 0

section Histories

variable {s t : Fifo}

theorem Sound.balanced (hs : s.Sound) : s.Balanced := by
  obtain hidle | ⟨p, pipe, hbusy⟩ := hs
  · have hpipe {p : Nat} {pipe : Pipe} (hpipe : s.pipes p = some pipe) : False := by
      rw [hidle.pipes] at hpipe
      cases hpipe
    refine ⟨fun _ _ h => (hpipe h).elim, fun _ _ h => (hpipe h).elim, fun _ _ h => (hpipe h).elim, fun p => ?_⟩
    rw [hidle.files]
    exact iff_of_true (hidle.pipes p) ⟨rfl, rfl⟩
  · have hall (P : FifoFile → Bool) : s.files.countP (fun f => f.pipe = p ∧ P f) = s.files.countP P := by
      apply countP_congr
      intro f hf
      simp [hbusy.files f hf]
    have hother {q : Nat} (hq : q ≠ p) (P : FifoFile → Bool) : s.files.countP (fun f => f.pipe = q ∧ P f) = 0 := by
      rw [countP_eq_zero]
      intro f hf hon
      exact hq ((of_decide_eq_true hon).1.symm.trans (hbusy.files f hf))
    have honly {q : Nat} {pipe' : Pipe} (hpipe : s.pipes q = some pipe') : q = p ∧ pipe' = pipe := by
      by_cases hq : q = p
      · rw [hq, hbusy.alive] at hpipe
        exact ⟨hq, (Option.some.inj hpipe).symm⟩
      · rw [hbusy.others q hq] at hpipe
        cases hpipe
    refine ⟨fun q pipe' hpipe => ?_, fun q pipe' hpipe => ?_, fun q pipe' hpipe => ?_, fun q => ?_⟩
    · obtain ⟨rfl, rfl⟩ := honly hpipe
      rw [hbusy.readers, hall (·.allowRead)]
    · obtain ⟨rfl, rfl⟩ := honly hpipe
      rw [hbusy.writers, hall (·.allowWrite)]
    · obtain ⟨rfl, rfl⟩ := honly hpipe
      refine ⟨hbusy.inode, ?_⟩
      rw [hbusy.refs, countP_eq_length.mpr fun f hf => decide_eq_true (hbusy.files f hf)]
    · by_cases hq : q = p
      · rw [hq, hbusy.alive, hall (·.allowRead), hall (·.allowWrite), and_comm, ← eq_nil_iff_countP]
        exact iff_of_false (by simp) hbusy.nonempty
      · rw [hother hq (·.allowRead), hother hq (·.allowWrite)]
        exact iff_of_true (hbusy.others q hq) ⟨rfl, rfl⟩

/-- The counters agree with the open files. As long as every open was welcome the lock is free, and the next call leaves
it free exactly if it is no open, or a welcome one. -/
theorem fifo_bookkeeping {ops : List FifoOp} (hrun : Run step Legal start ops t) :
    t.Balanced ∧ t.Unlocked ∧ ∀ op, t.Possible op →
      ∃ t', t.step op = some t' ∧ t'.Balanced ∧ (t'.Unlocked ↔ t.Legal op) := by
  have ht : t.Sound ∧ t.Unlocked := by
    refine hrun.invariant (fun s => s.Sound ∧ s.Unlocked) (fun s op u hs hlegal hstep => ?_) ?_
    · obtain ⟨s', hstep', hs', hunlocked⟩ := hs.1.step hs.2 (possible_of_step hstep)
      cases hstep'.symm.trans hstep
      exact ⟨hs', hunlocked.mpr hlegal⟩
    · have hidle : start.Idle := ⟨rfl, fun _ => rfl, rfl⟩
      exact ⟨.inl hidle, hidle.unlocked⟩
  refine ⟨ht.1.balanced, ht.2, fun op hpossible => ?_⟩
  obtain ⟨t', hstep, ht', hunlocked⟩ := ht.1.step ht.2 hpossible
  exact ⟨t', hstep, ht'.balanced, hunlocked⟩

/-- A reader that waits for a writer, the writer, and both closes. -/
theorem fifo_bookkeeping_pair :
    ∃ t, Run step Legal start [.open 0 0 7 fun _ => 0, .open 1 1 8 fun _ => 0, .wake 0 false, .close 1, .close 0] t ∧
      t.privateData = none ∧ t.Unlocked := by
  exact exists_run_of_replay_imp (fun t => t.privateData = none) (by decide) fun t hrun hinode =>
    ⟨hinode, (fifo_bookkeeping hrun).2.1⟩

/-- An open for reading that must not block returns with the lock held, and the next writer waits without end. -/
theorem fifo_open_keeps_lock :
    ∃ t, start.step (.open 0 0o4000 7 fun _ => 0) = some t ∧ ¬ t.Unlocked ∧ t.step (.open 1 1 8 fun _ => 0) = none := by
  refine ⟨_, rfl, fun hunlocked => ?_, rfl⟩
  exact Bool.false_ne_true (hunlocked 7 _ rfl).symm

end Histories

end Fifo

end Kairax.Ipc
