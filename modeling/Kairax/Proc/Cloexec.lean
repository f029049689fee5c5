import Kairax.Word
import Mathlib.Data.List.FinRange
import Mathlib.Data.List.Induction

/-!
# Close-on-exec bits

`close_on_exec` of `struct process` and the functions that read and write it. The array has one word for 64
descriptors, but the index is the descriptor divided by the size of a word in bytes, so that descriptors from 8 on
reach the fields behind it. `Table` is what was asked for each descriptor.
-/

namespace Kairax.Cloexec

open List Option BitVec Function

def maxDescriptors : Nat := 64

def cloexecIntSize : Nat := 8
def cloexecFdsInOne : Nat := cloexecIntSize * 8

/-- The length of the array `close_on_exec`. -/
def closeOnExecLength : Nat := maxDescriptors / cloexecFdsInOne

abbrev Fd := Fin maxDescriptors

/-- The part of `struct process` within reach. The words are those from `close_on_exec` on: the array, `fd_lock`, `tls`,
`tls_size`, `futex_list_head`, `futex_list_tail`, `futex_list_lock` and `mmap_ranges`. -/
structure Fields where
  fds : Fd → Option Nat
  words : Fin 8 → Word
  accessed : List Nat

def tlsWord : Fin 8 := 2

def tlsSizeWord : Fin 8 := 3

def mmapRangesWord : Fin 8 := 7

def lindex (fd : Fd) : Fin 8 := ⟨fd.val / cloexecIntSize, Nat.div_lt_of_lt_mul fd.isLt⟩

def fdindex (fd : Fd) : Nat := fd.val % cloexecIntSize

def processSetCloexec (p : Fields) (fd : Fd) (value : Bool) : Fields :=
  let word := p.words (lindex fd)
  let bit := 1#64 <<< fdindex fd
  { p with
    words := update p.words (lindex fd) (if value then word ||| bit else word &&& ~~~bit)
    accessed := (lindex fd).val :: p.accessed }

def processGetCloexec (p : Fields) (fd : Fd) : Word := (p.words (lindex fd) >>> fdindex fd) &&& 1#64

def fdLock (p : Fields) : BitVec 32 := (p.words 1).setWidth 32

/-- The word of `fd_lock`, with another value of the lock. -/
def putLock (p : Fields) (value : Word) : Fields :=
  { p with words := update p.words 1 ((p.words 1 >>> 32 <<< 32) ||| value) }

/-- `none` is a lock that no one releases. -/
def acquireSpinlock (p : Fields) : Option Fields := if fdLock p = 0 then some (putLock p 1#64) else none

def releaseSpinlock (p : Fields) : Fields := putLock p 0#64

def Fields.setFd (p : Fields) (fd : Fd) (slot : Option Nat) : Fields := { p with fds := update p.fds fd slot }

/-- `cloexec` is the value of a comparison in every caller. -/
def processAddFile (p : Fields) (file : Nat) (cloexec : Bool) : Option Fields := do
  let p ← acquireSpinlock p
  let p := match (finRange maxDescriptors).find? fun i => p.fds i = none with
    | some i =>
      let p := if cloexec then processSetCloexec p i true else p
      p.setFd i (some file)
    | none => p
  some (releaseSpinlock p)

def processAddFileAt (p : Fields) (file : Nat) (fd : Fd) : Option Fields := do
  let p ← acquireSpinlock p
  some (releaseSpinlock (p.setFd fd (some file)))

def processCloseFile (p : Fields) (fd : Fd) : Option Fields := do
  let p ← acquireSpinlock p
  let p := if p.fds fd = none then p else (processSetCloexec p fd false).setFd fd none
  some (releaseSpinlock p)

/-- `FD_CLOEXEC` in the argument of `fcntl`. -/
def fdCloexec (arg : Word) : Bool := arg &&& 1 = 1

/-- `sys_fcntl` with `F_SETFD`. The bit is set after `process_get_file` has released the lock. -/
def fcntlSetFd (p : Fields) (fd : Fd) (arg : Word) : Option Fields := do
  let p ← acquireSpinlock p
  let file := p.fds fd
  let p := releaseSpinlock p
  some (if file = none then p else processSetCloexec p fd (fdCloexec arg))

inductive Op where
  | addFile (file : Nat) (cloexec : Bool)
  | addFileAt (file : Nat) (fd : Fd)
  | closeFile (fd : Fd)
  | setFd (fd : Fd) (arg : Word)

def step (p : Fields) : Op → Option Fields
  | .addFile file cloexec => processAddFile p file cloexec
  | .addFileAt file fd => processAddFileAt p file fd
  | .closeFile fd => processCloseFile p fd
  | .setFd fd arg => fcntlSetFd p fd arg

def runOps (p : Fields) (ops : List Op) : Option Fields := ops.foldlM step p

abbrev Table := Fd → Option Bool

def Table.lowest (t : Table) : Option Fd := (finRange maxDescriptors).find? fun i => t i = none

def Table.step (t : Table) : Op → Table
  | .addFile _ cloexec =>
    match t.lowest with
    | some fd => update t fd (some cloexec)
    | none => t
  | .addFileAt _ fd => update t fd (some false)
  | .closeFile fd => update t fd none
  | .setFd fd arg => if t fd = none then t else update t fd (some (fdCloexec arg))

def requested (ops : List Op) : Table := ops.foldl Table.step fun _ => none

/-- No index has left the array, each open descriptor reads what was asked for it, and the fields behind the array are
those of `p₀`. -/
structure Agrees (p₀ p : Fields) (t : Table) : Prop where
  inside : ∀ i ∈ p.accessed, i < closeOnExecLength
  opened : ∀ fd : Fd, p.fds fd = none ↔ t fd = none
  bit_inside : ∀ fd, t fd ≠ none → (lindex fd).val < closeOnExecLength
  reads : ∀ fd value, t fd = some value → processGetCloexec p fd = if value then 1 else 0
  others : ∀ k : Fin 8, closeOnExecLength ≤ k.val → p.words k = p₀.words k

/-- What `create_new_process` leaves in the fields, the later ones apart. -/
structure Fresh (p : Fields) : Prop where
  closed : ∀ fd : Fd, p.fds fd = none
  clear : p.words 0 = 0
  unlocked : fdLock p = 0
  unused : p.accessed = []

/-- A new descriptor comes below 8, and a file put at a descriptor does not replace one to be closed on exec. -/
def Allowed (t : Table) : Op → Prop
  | .addFile _ _ => ∃ fd : Fd, fd.val < cloexecIntSize ∧ t fd = none
  | .addFileAt _ fd => fd.val < cloexecIntSize ∧ t fd ≠ some true
  | .closeFile _ => True
  | .setFd _ _ => True

def Confined (ops : List Op) : Prop :=
  ∀ before op, before ++ [op] <+: ops → Allowed (requested before) op

def Fields.bit (p : Fields) (fd : Fd) : Bool := (p.words (lindex fd)).getLsbD (fdindex fd)

theorem processGetCloexec_eq (p : Fields) (fd : Fd) : processGetCloexec p fd = if p.bit fd then 1 else 0 := by
  rw [processGetCloexec, and_one_eq_setWidth_ofBool_getLsbD, getLsbD_ushiftRight, add_zero, ← Fields.bit]
  cases p.bit fd with
  | true | false => rfl

theorem processGetCloexec_eq_iff (p : Fields) (fd : Fd) (value : Bool) :
    processGetCloexec p fd = (if value then 1 else 0) ↔ p.bit fd = value := by
  rw [processGetCloexec_eq]
  cases p.bit fd <;> cases value <;> decide

theorem fdindex_lt (fd : Fd) : fdindex fd < 8 := Nat.mod_lt _ (by decide)

theorem getLsbD_putBit (word : Word) (k : Nat) (value : Bool) (j : Nat) (hj : j < 64) :
    (if value then word ||| (1#64 <<< k) else word &&& ~~~(1#64 <<< k)).getLsbD j =
      if j = k then value else word.getLsbD j := by
  have hbit : (1#64 <<< k).getLsbD j = decide (j = k) := by
    rw [getLsbD_shiftLeft]
    simp only [hj]
    by_cases heq : j = k
    · simp [heq]
    · simp only [heq]
      simp
      omega
  cases value with
  | true =>
    simp only [if_true, getLsbD_or, hbit]
    by_cases heq : j = k <;> simp [heq]
  | false =>
    simp only [Bool.false_eq_true, if_false, getLsbD_and, getLsbD_not, hbit, hj]
    by_cases heq : j = k <;> simp [heq]

variable {fd : Fd} {p p₀ : Fields} {t : Table}

theorem eq_of_index {fd' : Fd} (hlindex : lindex fd = lindex fd') (hfdindex : fdindex fd = fdindex fd') : fd = fd' := by
  have hdiv : fd.val / cloexecIntSize = fd'.val / cloexecIntSize := congrArg Fin.val hlindex
  apply Fin.ext
  rw [← Nat.div_add_mod fd.val cloexecIntSize, ← Nat.div_add_mod fd'.val cloexecIntSize, hdiv]
  exact congrArg _ hfdindex

theorem bit_processSetCloexec (p : Fields) (fd fd' : Fd) (value : Bool) :
    (processSetCloexec p fd value).bit fd' = if fd' = fd then value else p.bit fd' := by
  have hword : (processSetCloexec p fd value).words (lindex fd') =
      if lindex fd' = lindex fd then
        (if value then p.words (lindex fd) ||| (1#64 <<< fdindex fd)
          else p.words (lindex fd) &&& ~~~(1#64 <<< fdindex fd))
      else p.words (lindex fd') := by
    simp only [processSetCloexec, update_apply]
  have hj := fdindex_lt fd'
  rw [Fields.bit, hword]
  by_cases hlindex : lindex fd' = lindex fd
  · rw [if_pos hlindex, getLsbD_putBit _ _ _ _ (by omega)]
    by_cases hfdindex : fdindex fd' = fdindex fd
    · rw [if_pos hfdindex, if_pos (eq_of_index hlindex hfdindex)]
    · rw [if_neg hfdindex, if_neg fun heq => hfdindex (congrArg fdindex heq), Fields.bit, hlindex]
  · rw [if_neg hlindex, if_neg fun heq => hlindex (congrArg lindex heq), Fields.bit]

theorem lindex_of_lt (hlt : fd.val < cloexecIntSize) : lindex fd = 0 :=
  Fin.ext (Nat.div_eq_of_lt hlt)

theorem lt_of_lindex (hlt : (lindex fd).val < closeOnExecLength) : fd.val < cloexecIntSize := by
  have hzero : fd.val / cloexecIntSize < 1 := hlt
  rw [cloexecIntSize] at hzero ⊢
  omega

theorem bit_of_lt (p : Fields) (hlt : fd.val < cloexecIntSize) : p.bit fd = (p.words 0).getLsbD (fdindex fd) := by
  rw [Fields.bit, lindex_of_lt hlt]

theorem getLsbD_high (word : Word) (j : Nat) :
    (word >>> 32 <<< 32).getLsbD j = (decide (32 ≤ j) && word.getLsbD j) := by
  rw [getLsbD_shiftLeft, getLsbD_ushiftRight]
  by_cases hhigh : 32 ≤ j
  · by_cases hj : j < 64
    · simp [hhigh, hj]
    · simp [hj, getLsbD_of_ge word j (by omega)]
  · simp [hhigh]

theorem putLock_putLock (p : Fields) (value : Word) : putLock (putLock p 1#64) value = putLock p value := by
  have hword : ((p.words 1 >>> 32 <<< 32) ||| 1#64) >>> 32 <<< 32 = p.words 1 >>> 32 <<< 32 := by
    apply eq_of_getLsbD_eq
    intro j hj
    rw [getLsbD_high, getLsbD_or, getLsbD_high]
    by_cases hhigh : 32 ≤ j
    · simp [hhigh]
      omega
    · simp [hhigh]
  simp only [putLock, update_self, hword, update_idem]

theorem putLock_zero (hunlocked : fdLock p = 0) : putLock p 0#64 = p := by
  have hword : (p.words 1 >>> 32 <<< 32) ||| 0#64 = p.words 1 := by
    apply eq_of_getLsbD_eq
    intro j hj
    rw [or_zero, getLsbD_high]
    by_cases hhigh : 32 ≤ j
    · simp [hhigh]
    · have hlow := congrArg (fun lock : BitVec 32 => lock.getLsbD j) hunlocked
      simp [fdLock, not_le.mp hhigh] at hlow
      simp [hlow]
  rw [putLock, hword, update_eq_self]

theorem acquireSpinlock_eq (hunlocked : fdLock p = 0) : acquireSpinlock p = some (putLock p 1#64) := if_pos hunlocked

theorem release_acquired (hunlocked : fdLock p = 0) : releaseSpinlock (putLock p 1#64) = p := by
  rw [releaseSpinlock, putLock_putLock, putLock_zero hunlocked]

theorem fdLock_releaseSpinlock (p : Fields) : fdLock (releaseSpinlock p) = 0 := by
  rw [fdLock, releaseSpinlock, putLock]
  simp only [update_self, or_zero]
  apply eq_of_getLsbD_eq
  intro j hj
  simp [hj]

theorem processSetCloexec_putLock (p : Fields) (hlt : fd.val < cloexecIntSize) (value : Bool) (lock : Word) :
    processSetCloexec (putLock p lock) fd value = putLock (processSetCloexec p fd value) lock := by
  have hne : (0 : Fin 8) ≠ 1 := by decide
  simp only [processSetCloexec, putLock, lindex_of_lt hlt, update_of_ne hne, update_of_ne hne.symm, update_comm hne]

theorem setFd_putLock (p : Fields) (fd : Fd) (slot : Option Nat) (lock : Word) :
    (putLock p lock).setFd fd slot = putLock (p.setFd fd slot) lock := rfl

theorem fdLock_setFd (p : Fields) (fd : Fd) (slot : Option Nat) : fdLock (p.setFd fd slot) = fdLock p := rfl

theorem fdLock_processSetCloexec (p : Fields) (hlt : fd.val < cloexecIntSize) (value : Bool) :
    fdLock (processSetCloexec p fd value) = fdLock p := by
  have hne : (1 : Fin 8) ≠ 0 := by decide
  simp only [fdLock, processSetCloexec, lindex_of_lt hlt, update_of_ne hne]

/-- The bit of the descriptor is in `close_on_exec` or `fd_lock`, or has the value. -/
def Keeps (p : Fields) (fd : Fd) (value : Bool) : Prop := 2 ≤ (lindex fd).val → p.bit fd = value

instance (p : Fields) (fd : Fd) (value : Bool) : Decidable (Keeps p fd value) := by
  unfold Keeps
  infer_instance

/-- The fields behind `fd_lock` are the same. -/
def SameBehind (p q : Fields) : Prop := ∀ k : Fin 8, 2 ≤ k.val → q.words k = p.words k

instance (p q : Fields) : Decidable (SameBehind p q) := by
  unfold SameBehind
  infer_instance

theorem sameBehind_putLock (p : Fields) (lock : Word) : SameBehind p (putLock p lock) := by
  intro k hk
  refine update_of_ne ?_ _ _
  rintro rfl
  exact absurd hk (by decide)

theorem Keeps.putLock {value : Bool} (hkeeps : Keeps p fd value) (lock : Word) :
    Keeps (putLock p lock) fd value := fun hi => by
  rw [Fields.bit, sameBehind_putLock p lock _ hi]
  exact hkeeps hi

theorem Keeps.sameBehind {value : Bool} (hkeeps : Keeps p fd value) : SameBehind p (processSetCloexec p fd value) := by
  intro k hk
  by_cases heq : k = lindex fd
  · have hbit := hkeeps (heq ▸ hk)
    rw [Fields.bit] at hbit
    simp only [processSetCloexec, heq, update_self]
    apply eq_of_getLsbD_eq
    intro j hj
    rw [getLsbD_putBit _ _ _ _ hj]
    split_ifs with hjk
    · rw [hjk, hbit]
    · rfl
  · exact update_of_ne heq _ _

section

variable (hunlocked : fdLock p = 0)
include hunlocked

theorem processAddFile_full (hfull : ((finRange maxDescriptors).find? fun i => p.fds i = none) = none)
    (file : Nat) (cloexec : Bool) : processAddFile p file cloexec = some p := by
  have hfds : (putLock p 1#64).fds = p.fds := rfl
  rw [processAddFile, acquireSpinlock_eq hunlocked, bind_eq_bind, bind_some]
  simp only [hfds, hfull]
  rw [release_acquired hunlocked]

theorem processAddFile_lowest {i : Fd} (hlowest : ((finRange maxDescriptors).find? fun i => p.fds i = none) = some i)
    (file : Nat) {cloexec : Bool} (hkeeps : cloexec = true → Keeps p i true) :
    ∃ q, processAddFile p file cloexec = some q ∧ q.fds = update p.fds i (some file) ∧ fdLock q = 0 ∧
      SameBehind p q := by
  have hfds : (putLock p 1#64).fds = p.fds := rfl
  rw [processAddFile, acquireSpinlock_eq hunlocked, bind_eq_bind, bind_some]
  simp only [hfds, hlowest]
  refine ⟨_, rfl, ?_, fdLock_releaseSpinlock _, fun k hk => ?_⟩
  · cases cloexec with
    | true | false => rfl
  · rw [releaseSpinlock, sameBehind_putLock _ _ k hk]
    cases cloexec with
    | true => exact (((hkeeps rfl).putLock 1#64).sameBehind k hk).trans (sameBehind_putLock p 1#64 k hk)
    | false => exact sameBehind_putLock p 1#64 k hk

theorem processCloseFile_keeps (hopen : p.fds fd ≠ none) (hkeeps : Keeps p fd false) :
    ∃ q, processCloseFile p fd = some q ∧ q.fds = update p.fds fd none ∧ fdLock q = 0 ∧ SameBehind p q := by
  have hfds : (putLock p 1#64).fds fd ≠ none := hopen
  rw [processCloseFile, acquireSpinlock_eq hunlocked, bind_eq_bind, bind_some]
  simp only [if_neg hfds]
  refine ⟨_, rfl, rfl, fdLock_releaseSpinlock _, fun k hk => ?_⟩
  rw [releaseSpinlock, sameBehind_putLock _ _ k hk]
  exact ((hkeeps.putLock 1#64).sameBehind k hk).trans (sameBehind_putLock p 1#64 k hk)

end

section

variable (hunlocked : fdLock p = 0)
include hunlocked

theorem processAddFile_eq {i : Fd}
    (hlowest : ((finRange maxDescriptors).find? fun i => p.fds i = none) = some i) (hlt : i.val < cloexecIntSize)
    (file : Nat) (cloexec : Bool) :
    processAddFile p file cloexec =
      some ((if cloexec then processSetCloexec p i true else p).setFd i (some file)) := by
  have hfds : (putLock p 1#64).fds = p.fds := rfl
  rw [processAddFile, acquireSpinlock_eq hunlocked, bind_eq_bind, bind_some]
  simp only [hfds, hlowest, processSetCloexec_putLock p hlt]
  cases cloexec with
  | true =>
    simp only [if_true, setFd_putLock]
    rw [release_acquired]
    rw [fdLock_setFd, fdLock_processSetCloexec p hlt, hunlocked]
  | false =>
    simp only [Bool.false_eq_true, if_false, setFd_putLock]
    rw [release_acquired]
    rw [fdLock_setFd, hunlocked]

theorem processAddFileAt_eq (file : Nat) (fd : Fd) : processAddFileAt p file fd = some (p.setFd fd (some file)) := by
  rw [processAddFileAt, acquireSpinlock_eq hunlocked, bind_eq_bind, bind_some, setFd_putLock,
    release_acquired (by rw [fdLock_setFd, hunlocked])]

theorem processCloseFile_of_closed (hclosed : p.fds fd = none) : processCloseFile p fd = some p := by
  have hfds : (putLock p 1#64).fds fd = none := hclosed
  rw [processCloseFile, acquireSpinlock_eq hunlocked, bind_eq_bind, bind_some]
  simp only [hfds, if_true]
  rw [release_acquired hunlocked]

theorem processCloseFile_of_open (hopen : p.fds fd ≠ none) (hlt : fd.val < cloexecIntSize) :
    processCloseFile p fd = some ((processSetCloexec p fd false).setFd fd none) := by
  have hfds : (putLock p 1#64).fds fd ≠ none := hopen
  rw [processCloseFile, acquireSpinlock_eq hunlocked, bind_eq_bind, bind_some]
  simp only [if_neg hfds, processSetCloexec_putLock p hlt, setFd_putLock]
  rw [release_acquired]
  rw [fdLock_setFd, fdLock_processSetCloexec p hlt, hunlocked]

theorem fcntlSetFd_eq (fd : Fd) (arg : Word) :
    fcntlSetFd p fd arg = some (if p.fds fd = none then p else processSetCloexec p fd (fdCloexec arg)) := by
  have hfds : (putLock p 1#64).fds = p.fds := rfl
  rw [fcntlSetFd, acquireSpinlock_eq hunlocked, bind_eq_bind, bind_some]
  simp only [release_acquired hunlocked, hfds]

end

/-- The bits agree with what was asked, and those of closed descriptors are clear. -/
structure Sound (p₀ p : Fields) (t : Table) : Prop extends Agrees p₀ p t where
  clear : ∀ fd : Fd, fd.val < cloexecIntSize → t fd = none → p.bit fd = false

variable (hsound : Sound p₀ p t)

include hsound

theorem Sound.update {q : Fields} (hlt : fd.val < cloexecIntSize) {slot : Option Nat}
    {value : Option Bool} (hopen : slot = none ↔ value = none) (hfds : q.fds = update p.fds fd slot)
    (hbit : ∀ fd', q.bit fd' = if fd' = fd then value.getD false else p.bit fd')
    (haccessed : ∀ i ∈ q.accessed, i = (lindex fd).val ∨ i ∈ p.accessed) (hwords : ∀ k, k ≠ 0 → q.words k = p.words k) :
    Sound p₀ q (update t fd value) := by
  have hinside : (lindex fd).val < closeOnExecLength := by
    rw [lindex_of_lt hlt]
    decide
  refine ⟨⟨fun i hi => ?_, fun fd' => ?_, fun fd' hfd' => ?_, fun fd' v hv => ?_, fun k hk => ?_⟩,
    fun fd' hlt' hfd' => ?_⟩
  · cases haccessed i hi with
    | inl heq => rwa [heq]
    | inr hmem => exact hsound.inside i hmem
  · by_cases heq : fd' = fd
    · rw [hfds, heq, update_self, update_self, hopen]
    · rw [hfds, update_of_ne heq, update_of_ne heq, hsound.opened]
  · by_cases heq : fd' = fd
    · rwa [heq]
    · rw [update_of_ne heq] at hfd'
      exact hsound.bit_inside fd' hfd'
  · rw [processGetCloexec_eq_iff, hbit]
    by_cases heq : fd' = fd
    · rw [heq, update_self] at hv
      rw [if_pos heq, hv, getD_some]
    · rw [update_of_ne heq] at hv
      rw [if_neg heq]
      exact (processGetCloexec_eq_iff p fd' v).mp (hsound.reads fd' v hv)
  · have hne : k ≠ 0 := by
      rintro rfl
      exact absurd hk (by decide)
    rw [hwords k hne, hsound.others k hk]
  · rw [hbit]
    by_cases heq : fd' = fd
    · rw [heq, update_self] at hfd'
      rw [if_pos heq, hfd', getD_none]
    · rw [update_of_ne heq] at hfd'
      rw [if_neg heq, hsound.clear fd' hlt' hfd']

theorem Sound.unlocked (hunlocked : fdLock p₀ = 0) : fdLock p = 0 := by
  rw [fdLock, hsound.others 1 (by decide), ← fdLock, hunlocked]

theorem Sound.lt_of_open (hopen : t fd ≠ none) : fd.val < cloexecIntSize := lt_of_lindex (hsound.bit_inside fd hopen)

theorem Sound.lowest : ((finRange maxDescriptors).find? fun i => p.fds i = none) = t.lowest := by
  rw [Table.lowest]
  simp only [hsound.opened]

omit hsound

theorem bit_setFd (p : Fields) (fd fd' : Fd) (slot : Option Nat) : (p.setFd fd slot).bit fd' = p.bit fd' := rfl

theorem words_processSetCloexec (p : Fields) (hlt : fd.val < cloexecIntSize) (value : Bool) (k : Fin 8) (hk : k ≠ 0) :
    (processSetCloexec p fd value).words k = p.words k := by
  simp only [processSetCloexec, lindex_of_lt hlt, update_of_ne hk]

theorem accessed_processSetCloexec (p : Fields) (fd : Fd) (value : Bool) :
    ∀ i ∈ (processSetCloexec p fd value).accessed, i = (lindex fd).val ∨ i ∈ p.accessed :=
  fun _ hi => mem_cons.mp hi

theorem Table.lowest_lt (hlt : fd.val < cloexecIntSize) (hclosed : t fd = none) :
    ∃ i, t.lowest = some i ∧ i.val < cloexecIntSize ∧ t i = none := by
  obtain ⟨i, hi⟩ : ∃ i, t.lowest = some i := by
    rw [← isSome_iff_exists, Table.lowest, find?_isSome]
    exact ⟨fd, mem_finRange fd, decide_eq_true hclosed⟩
  refine ⟨i, hi, ?_, by simpa using find?_some hi⟩
  -- every descriptor before the one found is open
  obtain ⟨-, before, after, hsplit, hbefore⟩ := find?_eq_some_iff_append.mp hi
  by_contra hge
  have hsorted : (before ++ i :: after).Pairwise (· < ·) := by
    rw [← hsplit]
    exact pairwise_lt_finRange _
  have hmem : fd ∈ before ++ i :: after := by
    rw [← hsplit]
    exact mem_finRange fd
  rcases mem_append.mp hmem with hin | hin
  · have hopen := hbefore fd hin
    simp [hclosed] at hopen
  · rcases mem_cons.mp hin with heq | hin
    · exact hge (heq ▸ hlt)
    · have hafter := (pairwise_cons.mp (pairwise_append.mp hsorted).2.1).1 fd hin
      have hval : i.val < fd.val := hafter
      omega

theorem Sound.step (hunlocked : fdLock p₀ = 0) (hsound : Sound p₀ p t) {op : Op} (hallowed : Allowed t op) :
    ∃ q, Cloexec.step p op = some q ∧ Sound p₀ q (t.step op) := by
  have hfree := hsound.unlocked hunlocked
  cases op with
  | addFile file cloexec =>
    obtain ⟨fd, hlt, hclosed⟩ := hallowed
    obtain ⟨i, hlowest, hilt, hiclosed⟩ := Table.lowest_lt hlt hclosed
    refine ⟨_, processAddFile_eq hfree (hsound.lowest.trans hlowest) hilt file cloexec, ?_⟩
    rw [Table.step, hlowest]
    cases cloexec with
    | true =>
      exact hsound.update hilt (by simp) rfl
        (fun fd' => by rw [if_pos rfl, bit_setFd, bit_processSetCloexec]; rfl)
        (accessed_processSetCloexec p i true) (words_processSetCloexec p hilt true)
    | false =>
      refine hsound.update hilt (by simp) rfl (fun fd' => ?_) (fun _ hi => Or.inr hi) fun _ _ => rfl
      change p.bit fd' = _
      split_ifs with heq
      · rw [heq, hsound.clear i hilt hiclosed]
        rfl
      · rfl
  | addFileAt file fd =>
    obtain ⟨hlt, hnot⟩ := hallowed
    refine ⟨_, processAddFileAt_eq hfree file fd, ?_⟩
    refine hsound.update hlt (by simp) rfl (fun fd' => ?_) (fun _ hi => Or.inr hi) fun _ _ => rfl
    rw [bit_setFd]
    split_ifs with heq
    · rw [heq]
      cases ht : t fd with
      | none => exact hsound.clear fd hlt ht
      | some value =>
        rw [(processGetCloexec_eq_iff p fd value).mp (hsound.reads fd value ht)]
        cases value with
        | true => exact absurd ht hnot
        | false => rfl
    · rfl
  | closeFile fd =>
    by_cases hclosed : t fd = none
    · refine ⟨p, processCloseFile_of_closed hfree ((hsound.opened fd).mpr hclosed), ?_⟩
      rwa [Table.step, ← hclosed, update_eq_self]
    · have hlt := hsound.lt_of_open hclosed
      refine ⟨_, processCloseFile_of_open hfree (mt (hsound.opened fd).mp hclosed) hlt, ?_⟩
      exact hsound.update hlt (by simp) rfl (fun fd' => by rw [bit_setFd, bit_processSetCloexec]; rfl)
        (accessed_processSetCloexec p fd false) (words_processSetCloexec p hlt false)
  | setFd fd arg =>
    refine ⟨_, fcntlSetFd_eq hfree fd arg, ?_⟩
    rw [Table.step]
    by_cases hclosed : t fd = none
    · rwa [if_pos ((hsound.opened fd).mpr hclosed), if_pos hclosed]
    · have hopen := mt (hsound.opened fd).mp hclosed
      have hlt := hsound.lt_of_open hclosed
      rw [if_neg hopen, if_neg hclosed]
      refine hsound.update hlt ?_ (update_eq_self fd p.fds).symm
        (fun fd' => by rw [bit_processSetCloexec]; rfl)
        (accessed_processSetCloexec p fd _) (words_processSetCloexec p hlt _)
      simp [hopen]

theorem Sound.allowed_of_agrees {q : Fields} (hunlocked : fdLock p₀ = 0) (hsound : Sound p₀ p t) {op : Op}
    (hstep : Cloexec.step p op = some q) (hagrees : Agrees p₀ q (t.step op)) : Allowed t op := by
  have hfree := hsound.unlocked hunlocked
  cases op with
  | addFile file cloexec =>
    cases hlowest : t.lowest with
    | none =>
      have hopen : t ⟨8, by decide⟩ ≠ none := by
        have hall := find?_eq_none.mp hlowest ⟨8, by decide⟩ (mem_finRange _)
        simpa using hall
      exact absurd (hsound.bit_inside _ hopen) (by decide)
    | some fd =>
      rw [Table.step, hlowest] at hagrees
      change Agrees p₀ q (Function.update t fd (some cloexec)) at hagrees
      have hinside := hagrees.bit_inside fd (by rw [update_self]; exact some_ne_none _)
      exact ⟨fd, lt_of_lindex hinside, by simpa using find?_some hlowest⟩
  | addFileAt file fd =>
    rw [Table.step] at hagrees
    have hinside := hagrees.bit_inside fd (by rw [update_self]; exact some_ne_none _)
    refine ⟨lt_of_lindex hinside, fun htrue => ?_⟩
    have hafter := (processGetCloexec_eq_iff q fd false).mp
      (hagrees.reads fd false (update_self fd _ t))
    have hbefore := (processGetCloexec_eq_iff p fd true).mp (hsound.reads fd true htrue)
    rw [← some.inj ((processAddFileAt_eq hfree file fd).symm.trans hstep), bit_setFd, hbefore] at hafter
    exact absurd hafter (by decide)
  | closeFile fd | setFd fd arg => trivial

theorem runOps_concat (p : Fields) (ops : List Op) (op : Op) :
    runOps p (ops ++ [op]) = (runOps p ops).bind fun q => step q op := by
  simp only [runOps, foldlM_append, foldlM_cons, foldlM_nil, bind_pure]
  rfl

theorem requested_concat (ops : List Op) (op : Op) : requested (ops ++ [op]) = (requested ops).step op := by
  rw [requested, foldl_append]
  rfl

theorem confined_concat (ops : List Op) (op : Op) :
    Confined (ops ++ [op]) ↔ Confined ops ∧ Allowed (requested ops) op := by
  constructor
  · intro hconfined
    refine ⟨fun before op' hstart => ?_, hconfined ops op (prefix_refl _)⟩
    exact hconfined before op' (hstart.trans (prefix_append ops [op]))
  · rintro ⟨hconfined, hallowed⟩ before op' hstart
    rcases prefix_concat_iff.mp hstart with heq | hstart
    · obtain ⟨rfl, hop⟩ := append_inj' heq rfl
      rwa [singleton_inj.mp hop]
    · exact hconfined before op' hstart

theorem Fresh.sound (hfresh : Fresh p) : Sound p p (requested []) := by
  refine ⟨⟨?_, fun fd => iff_of_true (hfresh.closed fd) rfl, fun fd hopen => absurd rfl hopen,
    fun fd value hsome => absurd hsome (some_ne_none value).symm, fun _ _ => rfl⟩, fun fd hlt _ => ?_⟩
  · rw [hfresh.unused]
    exact forall_mem_nil _
  · rw [bit_of_lt p hlt, hfresh.clear]
    exact getLsbD_zero

theorem sound_of_confined (hfresh : Fresh p) (ops : List Op) (hconfined : Confined ops) :
    ∃ q, runOps p ops = some q ∧ Sound p q (requested ops) := by
  induction ops using reverseRecOn with
  | nil => exact ⟨p, rfl, hfresh.sound⟩
  | append_singleton ops op ih =>
    obtain ⟨hbefore, hallowed⟩ := (confined_concat ops op).mp hconfined
    obtain ⟨q, hrun, hsound⟩ := ih hbefore
    obtain ⟨r, hstep, hr⟩ := hsound.step hfresh.unlocked hallowed
    refine ⟨r, ?_, ?_⟩
    · rw [runOps_concat, hrun, bind_some, hstep]
    · rwa [requested_concat]

/-- The bits are what was asked for, without a change behind the array, exactly when the descriptors stay below 8 and no
file is put at a descriptor to be closed on exec. -/
theorem cloexec_kept (p : Fields) (hfresh : Fresh p) (ops : List Op) :
    (∀ before, before <+: ops → ∃ q, runOps p before = some q ∧ Agrees p q (requested before)) ↔
      Confined ops := by
  constructor
  · intro hkept
    induction ops using reverseRecOn with
    | nil => exact fun before op hstart => absurd (prefix_nil.mp hstart) (by simp)
    | append_singleton ops op ih =>
      have hconfined := ih fun before hstart => hkept before (hstart.trans (prefix_append ops [op]))
      obtain ⟨q, hrun, hsound⟩ := sound_of_confined hfresh ops hconfined
      obtain ⟨r, hrun', hagrees⟩ := hkept (ops ++ [op]) (prefix_refl _)
      rw [runOps_concat, hrun] at hrun'
      rw [requested_concat] at hagrees
      exact (confined_concat ops op).mpr
        ⟨hconfined, hsound.allowed_of_agrees hfresh.unlocked hrun' hagrees⟩
  · intro hconfined before hstart
    obtain ⟨q, hrun, hsound⟩ := sound_of_confined hfresh before fun before' op hstart' =>
      hconfined before' op (hstart'.trans hstart)
    exact ⟨q, hrun, hsound.toAgrees⟩

def newProcess : Fields :=
  { fds := fun _ => none, words := fun k => if k = 7 then 0xFFFF800000123000 else 0, accessed := [] }

theorem newProcess_fresh : Fresh newProcess :=
  ⟨fun _ => rfl, by decide, by decide, rfl⟩

/-- Descriptor 0 is opened to be closed on exec, closed and opened again without. -/
def reuse : List Op := [.addFile 0 true, .closeFile ⟨0, by decide⟩, .addFile 1 false]

theorem reuse_confined : Confined reuse := by
  have hnil : Confined [] := fun before op hstart => absurd (prefix_nil.mp hstart) (by simp)
  have hfree : ∀ file cloexec (ops : List Op), requested ops ⟨0, by decide⟩ = none →
      Allowed (requested ops) (.addFile file cloexec) :=
    fun _ _ _ hclosed => ⟨⟨0, by decide⟩, by decide, hclosed⟩
  have hfirst := (confined_concat [] (.addFile 0 true)).mpr ⟨hnil, hfree _ _ _ rfl⟩
  have hsecond := (confined_concat _ (.closeFile ⟨0, by decide⟩)).mpr ⟨hfirst, trivial⟩
  exact (confined_concat _ (.addFile 1 false)).mpr ⟨hsecond, hfree _ _ _ (by decide)⟩

theorem cloexec_kept_reuse :
    Fresh newProcess ∧ ∃ q, runOps newProcess reuse = some q ∧ Agrees newProcess q (requested reuse) :=
  ⟨newProcess_fresh, (cloexec_kept newProcess newProcess_fresh reuse).mpr reuse_confined reuse (prefix_refl _)⟩

/-- Nine files are opened and the ninth, at descriptor 8, is to be closed on exec. -/
def ninth : List Op := replicate 9 (.addFile 0 false) ++ [.setFd ⟨8, by decide⟩ 1]

/-- A file to be closed on exec is replaced by another at the same descriptor. -/
def replaced : List Op := [.addFile 0 true, .addFileAt 1 ⟨0, by decide⟩]

/-- Descriptor 8 has its bit in `fd_lock`, which then stays locked. Descriptor 0 still reads 1 after `dup2`. -/
theorem bit_in_lock_and_stale :
    Fresh newProcess ∧
      (∃ q, runOps newProcess ninth = some q ∧ q.accessed = [1] ∧ fdLock q = 1 ∧ step q (.addFile 0 false) = none) ∧
      ∃ q, runOps newProcess replaced = some q ∧ requested replaced ⟨0, by decide⟩ = some false ∧
        processGetCloexec q ⟨0, by decide⟩ = 1 := by
  refine ⟨newProcess_fresh, ⟨(runOps newProcess ninth).get (by decide), some_get _ |>.symm, ?_⟩,
    (runOps newProcess replaced).get (by decide), some_get _ |>.symm, ?_⟩
  · decide
  · decide

end Kairax.Cloexec
