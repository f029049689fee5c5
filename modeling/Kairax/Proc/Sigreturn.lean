import Kairax.Lib.Bytes
import Kairax.Proc.Region

/-!
# The return from a signal handler

`arch_sigreturn` takes the frame of the interrupted code from the stack of the process, and `scheduler_exit` loads it
into the processor. The two segment registers are set by the kernel. The address of the frame, the flags and the
instruction pointer are taken as they are.
-/

namespace Kairax.Proc

open Lib List

/-- The registers that `popaq` loads. -/
structure Regs where
  r15 : Word
  r14 : Word
  r13 : Word
  r12 : Word
  r11 : Word
  r10 : Word
  r9 : Word
  r8 : Word
  rdi : Word
  rsi : Word
  rbp : Word
  rbx : Word
  rdx : Word
  rcx : Word
  rax : Word

/-- `thread_frame_t` -/
structure ThreadFrame extends Regs where
  rip : Word
  cs : Word
  rflags : Word
  rsp : Word
  ss : Word

/-- The number of a field of a structure that consists of 64-bit fields. -/
def field (bytes : Buf) (i : Nat) : Word := BitVec.ofNat 64 (readLE bytes (8 * i) 8)

def ThreadFrame.ofBytes (bytes : Buf) : ThreadFrame where
  r15 := field bytes 0
  r14 := field bytes 1
  r13 := field bytes 2
  r12 := field bytes 3
  r11 := field bytes 4
  r10 := field bytes 5
  r9 := field bytes 6
  r8 := field bytes 7
  rdi := field bytes 8
  rsi := field bytes 9
  rbp := field bytes 10
  rbx := field bytes 11
  rdx := field bytes 12
  rcx := field bytes 13
  rax := field bytes 14
  rip := field bytes 15
  cs := field bytes 16
  rflags := field bytes 17
  rsp := field bytes 18
  ss := field bytes 19

/-- The registers of a processor. The flag says that the base of GS is that of the process. -/
structure Cpu where
  regs : Regs
  rip : Word
  cs : Word
  rflags : Word
  rsp : Word
  ss : Word
  userGs : Bool

namespace Cpu

def cpl (cpu : Cpu) : Word := cpu.cs &&& 3

def systemFlags : Word := 0x183200

def interruptFlag : Word := 0x200

def system (cpu : Cpu) : Word × Word × Word × Bool := (cpu.cs, cpu.ss, cpu.rflags &&& systemFlags, cpu.userGs)

end Cpu

/-- `GDT_BASE_USER_CODE_SEG | 0b11` -/
def userCodeSeg : Word := 0x20 ||| 3

/-- `GDT_BASE_USER_DATA_SEG | 0b11` -/
def userDataSeg : Word := 0x18 ||| 3

def Canonical (a : Word) : Prop := a.toNat < 2 ^ 47 ∨ 2 ^ 64 - 2 ^ 47 ≤ a.toNat

instance decidableCanonical (a : Word) : Decidable (Canonical a) := by
  unfold Canonical
  infer_instance

/-- The flags that `iretq` loads in the kernel. VM and the reserved flags stay as they are in long mode. -/
def iretFlags (rflags : Word) : Word := rflags &&& 0x3d7fd5 ||| 2

/-- `scheduler_exit`: the registers are loaded, GS is swapped unless the code segment is the kernel's, and `iretq` loads
the rest. It faults if the instruction pointer is not canonical. -/
def schedulerExit (ctx : ThreadFrame) : Option Cpu :=
  if Canonical ctx.rip then
    some { regs := ctx.toRegs, rip := ctx.rip, cs := ctx.cs, rflags := iretFlags ctx.rflags, rsp := ctx.rsp,
           ss := ctx.ss, userGs := decide (ctx.cs ≠ 8) }
  else none

def load (mem : Word → Byte) (a : Word) (len : Nat) : Buf × List Word :=
  (fun i => mem (a + BitVec.ofNat 64 i), (range len).map fun i => a + BitVec.ofNat 64 i)

/-- What `arch_sigreturn` leaves: the mask, the stack pointer, the processor, and the addresses that it has read. -/
structure Returned where
  blockedSignals : Word
  userStack : Word
  cpu : Option Cpu
  reads : List Word

def archSigreturn (mem : Word → Byte) (userStack : Word) : Returned :=
  let mask := load mem userStack 8
  let userStack := userStack + 8
  let frame := load mem userStack 160
  { blockedSignals := field mask.1 0
    userStack
    cpu := schedulerExit { ThreadFrame.ofBytes frame.1 with cs := userCodeSeg, ss := userDataSeg }
    reads := mask.2 ++ frame.2 }

def savedFrame (mem : Word → Byte) (userStack : Word) : ThreadFrame := .ofBytes (load mem (userStack + 8) 160).1

/-- Only memory of the process is read, and the processor runs its code: at level 3, with interrupts, without access to
ports. -/
structure Confined (r : Returned) : Prop where
  reads : ∀ a ∈ r.reads, a < userspaceMaxAddr
  resumes : ∃ cpu, r.cpu = some cpu ∧ cpu.cpl = 3 ∧ cpu.rflags &&& Cpu.systemFlags = Cpu.interruptFlag ∧
    cpu.rip < userspaceMaxAddr

theorem load_below {mem : Word → Byte} {a : Word} {len : Nat} (hlen : 0 < len) (hsmall : len ≤ 2 ^ 47) :
    (∀ b ∈ (load mem a len).2, b < userspaceMaxAddr) ↔ a.toNat + len ≤ userspaceMaxAddr.toNat := by
  rw [load, forall_mem_map, toNat_userspaceMaxAddr]
  constructor
  · intro hall
    have hfirst := hall 0 (mem_range.mpr hlen)
    have hlast := hall (len - 1) (mem_range.mpr (by omega))
    rw [BitVec.lt_def, toNat_userspaceMaxAddr] at hfirst hlast
    rw [toNat_add_ofNat (by omega)] at hfirst
    rw [toNat_add_ofNat (by omega)] at hlast
    omega
  · intro hle i hi
    rw [mem_range] at hi
    rw [BitVec.lt_def, toNat_userspaceMaxAddr, toNat_add_ofNat (by omega)]
    omega

theorem iretFlags_system (rflags : Word) : iretFlags rflags &&& Cpu.systemFlags = rflags &&& Cpu.systemFlags := by
  rw [iretFlags, BitVec.and_or_distrib_right, BitVec.and_assoc,
    show (0x3d7fd5 : Word) &&& Cpu.systemFlags = Cpu.systemFlags from rfl,
    show (2 : Word) &&& Cpu.systemFlags = 0#64 from rfl,
    BitVec.or_zero]

theorem canonical_of_user {a : Word} (ha : a < userspaceMaxAddr) : Canonical a := by
  rw [BitVec.lt_def, toNat_userspaceMaxAddr] at ha
  left
  omega

/-- The frame lies in the memory of the process and holds an instruction pointer and flags of its code. -/
def Genuine (mem : Word → Byte) (userStack : Word) : Prop :=
  userStack.toNat + 168 ≤ userspaceMaxAddr.toNat ∧ (savedFrame mem userStack).rip < userspaceMaxAddr ∧
    (savedFrame mem userStack).rflags &&& Cpu.systemFlags = Cpu.interruptFlag

section Sigreturn

variable {mem : Word → Byte} {userStack : Word}

theorem reads_below : (∀ a ∈ (archSigreturn mem userStack).reads, a < userspaceMaxAddr) ↔
    userStack.toNat + 168 ≤ userspaceMaxAddr.toNat := by
  have hreads : (archSigreturn mem userStack).reads = (load mem userStack 8).2 ++
      (load mem (userStack + 8) 160).2 := rfl
  rw [hreads, forall_mem_append, load_below (by decide) (by decide), load_below (by decide) (by decide)]
  rw [toNat_userspaceMaxAddr]
  have hsum (h : userStack.toNat + 8 ≤ 0x7FFFFFFFFFFF) : (userStack + 8).toNat = userStack.toNat + 8 :=
    toNat_add_ofNat (k := 8) (by omega)
  constructor
  · rintro ⟨hmask, hframe⟩
    omega
  · intro hall
    omega

/-- The frame that `scheduler_exit` gets. -/
def restored (mem : Word → Byte) (userStack : Word) : ThreadFrame :=
  { savedFrame mem userStack with cs := userCodeSeg, ss := userDataSeg }

theorem cpu_archSigreturn : (archSigreturn mem userStack).cpu = schedulerExit (restored mem userStack) := by
  rw [archSigreturn, restored, savedFrame]

theorem schedulerExit_restored {cpu : Cpu} (hcpu : schedulerExit (restored mem userStack) = some cpu) :
    cpu.cs = userCodeSeg ∧ cpu.ss = userDataSeg ∧ cpu.userGs = true ∧ cpu.rip = (savedFrame mem userStack).rip ∧
      cpu.rflags = iretFlags (savedFrame mem userStack).rflags := by
  rw [schedulerExit] at hcpu
  split_ifs at hcpu
  cases hcpu
  exact ⟨rfl, rfl, rfl, rfl, rfl⟩

theorem system_archSigreturn {cpu : Cpu} (hcpu : (archSigreturn mem userStack).cpu = some cpu) :
    cpu.system = (userCodeSeg, userDataSeg, (savedFrame mem userStack).rflags &&& Cpu.systemFlags, true) := by
  rw [cpu_archSigreturn] at hcpu
  obtain ⟨hcs, hss, hgs, -, hflags⟩ := schedulerExit_restored hcpu
  rw [Cpu.system, hcs, hss, hgs, hflags, iretFlags_system]

theorem confined_iff : Confined (archSigreturn mem userStack) ↔ Genuine mem userStack := by
  constructor
  · rintro ⟨hreads, cpu, hcpu, -, hflags, hrip⟩
    rw [cpu_archSigreturn] at hcpu
    obtain ⟨-, -, -, hrip', hflags'⟩ := schedulerExit_restored hcpu
    rw [hflags', iretFlags_system] at hflags
    rw [hrip'] at hrip
    exact ⟨reads_below.mp hreads, hrip, hflags⟩
  · rintro ⟨hstack, hrip, hflags⟩
    obtain ⟨cpu, hcpu⟩ : ∃ cpu, schedulerExit (restored mem userStack) = some cpu :=
      ⟨_, if_pos (canonical_of_user hrip)⟩
    obtain ⟨hcs, -, -, hrip', hflags'⟩ := schedulerExit_restored hcpu
    refine ⟨reads_below.mpr hstack, cpu, cpu_archSigreturn.trans hcpu, ?_, ?_, ?_⟩
    · rw [Cpu.cpl, hcs]
      rfl
    · rw [hflags', iretFlags_system, hflags]
    · rw [hrip']
      exact hrip

end Sigreturn

/-- A return from a handler stays in the process if and only if the frame is genuine, and then only registers of the
process depend on it. -/
theorem sigreturn_confined (mem : Word → Byte) (userStack : Word) :
    (Confined (archSigreturn mem userStack) ↔ Genuine mem userStack) ∧
      ∀ mem' userStack', Genuine mem userStack → Genuine mem' userStack' → ∀ cpu cpu',
        (archSigreturn mem userStack).cpu = some cpu → (archSigreturn mem' userStack').cpu = some cpu' →
        cpu.system = cpu'.system := by
  refine ⟨confined_iff, ?_⟩
  rintro mem' userStack' ⟨-, -, hflags⟩ ⟨-, -, hflags'⟩ cpu cpu' hcpu hcpu'
  rw [system_archSigreturn hcpu, system_archSigreturn hcpu', hflags, hflags']

def plainStack : Word → Byte := fun a => if a = 0x1000 + 8 + 17 * 8 + 1 then 2 else 0

theorem sigreturn_confined_plain : Genuine plainStack 0x1000 ∧ Confined (archSigreturn plainStack 0x1000) := by
  have hgenuine : Genuine plainStack 0x1000 := by
    refine ⟨?_, ?_, ?_⟩ <;> decide +kernel
  exact ⟨hgenuine, (sigreturn_confined plainStack 0x1000).1.mpr hgenuine⟩

/-- A frame of zeros runs without interrupts, a frame of ones with all ports at an address of the kernel, and a stack
pointer into the kernel is followed. -/
theorem forged_frame_runs :
    (∃ cpu, (archSigreturn (fun _ => 0) 0x1000).cpu = some cpu ∧ cpu.rflags &&& 0x200 = 0) ∧
      (∃ cpu, (archSigreturn (fun _ => 0xff) 0x1000).cpu = some cpu ∧ cpu.rflags &&& 0x3000 = 0x3000 ∧
        userspaceMaxAddr < cpu.rip) ∧
      0xffffffff80000000 ∈ (archSigreturn (fun _ => 0) 0xffffffff80000000).reads := by
  refine ⟨⟨_, rfl, ?_⟩, ⟨_, rfl, ?_, ?_⟩, ?_⟩
  · decide +kernel
  · decide
  · decide +kernel
  · decide

end Kairax.Proc
