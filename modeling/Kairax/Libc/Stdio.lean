import Kairax.Lib.Bytes

/-!
# Streams of the C library

`fgetc`, `fputc`, `ungetc`, `fseek`, `ftell` and `fflush` on a stream that is open for reading and writing. One buffer
is used for both directions. `ftello` takes the bytes that are left from the offset with 32 bits. `fflush` and a
relative `fseek` do not count a character that was pushed back, and `fgetc` loses it after a write.
-/

namespace Kairax.Libc

open Lib Option Function
open BitVec (ofInt ofNat toNat_ofNat)

/-- `EOF` -/
def eof : Int := -1

/-- A byte as `fgetc` returns it. -/
def result (b : Byte) : Int := b.toNat

inductive Whence
  | set
  | cur
  | fromEnd
  deriving DecidableEq

/-- `struct IO_FILE` with its flags, and the file of the kernel with the offset of the descriptor. -/
structure Stream where
  error : Bool
  atEof : Bool
  input : Bool
  unbuffered : Bool
  lineBuf : Bool
  canRead : Bool
  canWrite : Bool
  buffer : Buf
  bufPos : Nat
  bufSize : Nat
  bufLen : Nat
  ungetbuf : Buf
  ungotten : Nat
  file : ByteFile
  offset : Nat

namespace Stream

def base (s : Stream) : Whence → Int
  | .set => 0
  | .cur => s.offset
  | .fromEnd => s.file.size

/-- `lseek`. It is `none` if there is no such offset. -/
def lseek (s : Stream) (offset : Int) (whence : Whence) : Option Stream :=
  if s.base whence + offset < 0 then none else some { s with offset := (s.base whence + offset).toNat }

/-- `write` of the first bytes of the buffer, in full. -/
def sysWrite (s : Stream) (count : Nat) (data : Buf) : Stream :=
  { s with file := s.file.write s.offset count data, offset := s.offset + count }

/-- `read` into the buffer, of all that is there. -/
def sysRead (s : Stream) (count : Nat) : Nat × Stream :=
  let rd := min count (s.file.size - s.offset)
  (rd, { s with buffer := copy s.buffer 0 (fun i => s.file.bytes (s.offset + i)) rd, offset := s.offset + rd })

/-- `fflush_unlocked`. The difference of the two counters is an `int`. -/
def fflushUnlocked (s : Stream) : Option (Int × Stream) :=
  if s.input then
    let delta := (ofNat 32 s.bufPos - ofNat 32 s.bufSize).toInt
    (if delta ≠ 0 then s.lseek delta .cur else some s).map fun s =>
      (0, { s with bufPos := 0, bufSize := 0, ungotten := 0 })
  else if 0 < s.bufPos then some (0, { s.sysWrite s.bufPos s.buffer with bufPos := 0, ungotten := 0 })
  else some (0, { s with ungotten := 0 })

/-- The end of `fgetc_unlocked`: the next byte of the buffer, which is filled if it is used up. -/
def nextByte (s : Stream) : Int × Stream :=
  if s.bufSize ≤ s.bufPos then
    let (rd, t) := s.sysRead s.bufLen
    if rd = 0 then (eof, { t with atEof := true })
    else (result (t.buffer 0), { t with bufPos := 1, bufSize := rd })
  else (result (s.buffer s.bufPos), { s with bufPos := s.bufPos + 1 })

def fgetcUnlocked (s : Stream) : Option (Int × Stream) :=
  if s.canRead = false then some (eof, { s with error := true })
  else
    (if s.input = false then s.fflushUnlocked.map fun r => { r.2 with input := true } else some s).map fun s =>
      if 0 < s.ungotten then (result (s.ungetbuf (s.ungotten - 1)), { s with ungotten := s.ungotten - 1 })
      else s.nextByte

/-- `fflush_unlocked` as `fputc_unlocked` calls it for the character `c`. -/
def flushAfter (s : Stream) (c : Int) : Option (Int × Stream) :=
  s.fflushUnlocked.map fun r => if r.1 ≠ 0 then (eof, { r.2 with error := true }) else (c, r.2)

def keep (s : Stream) (val : Byte) : Stream :=
  { s with buffer := update s.buffer s.bufPos val, bufPos := s.bufPos + 1 }

/-- The end of `fputc_unlocked`, when the stream writes and the buffer has room. -/
def store (s : Stream) (c : Int) : Option (Int × Stream) :=
  let val := ofInt 8 c
  if s.unbuffered then some (c, s.sysWrite 1 fun _ => val)
  else if c = 10 ∧ s.lineBuf = true then (s.keep val).flushAfter c
  else some (c, s.keep val)

/-- `fputc_unlocked` when the stream writes. A full buffer is flushed before. -/
def storeOrFlush (s : Stream) (c : Int) : Option (Int × Stream) :=
  if (s.bufLen + 2 ^ 32 - 1) % 2 ^ 32 ≤ s.bufPos then
    s.fflushUnlocked.bind fun r => if r.1 ≠ 0 then some (eof, { r.2 with error := true }) else r.2.store c
  else s.store c

def fputcUnlocked (s : Stream) (c : Int) : Option (Int × Stream) :=
  if s.canWrite = false then some (eof, { s with error := true })
  else
    (if s.input then s.fflushUnlocked.map fun r => { r.2 with input := false } else some s).bind fun s =>
      s.storeOrFlush c

def ungetcUnlocked (s : Stream) (c : Int) : Int × Stream :=
  if c = eof then (eof, s)
  else if 4 ≤ s.ungotten then (eof, s)
  else
    (c, { s with
      ungetbuf := update s.ungetbuf s.ungotten (ofInt 8 c), ungotten := s.ungotten + 1, atEof := false })

/-- The correction is an unsigned number of 32 bits when the stream reads. -/
def ftello (s : Stream) : Int :=
  if s.error then -1
  else
    let modifier : Nat :=
      if s.input then
        (-(ofNat 32 s.bufSize - ofNat 32 s.bufPos) - ofNat 32 s.ungotten).toNat
      else s.bufPos
    s.offset + modifier

def fseeko (s : Stream) (offset : Int) (whence : Whence) : Option (Int × Stream) :=
  s.fflushUnlocked.bind fun r =>
    let t := { r.2 with bufPos := 0, bufSize := 0, ungotten := 0, atEof := false }
    (t.lseek offset whence).map fun t => (0, t)

end Stream

inductive StreamOp
  | fgetc
  | fputc (c : Int)
  | ungetc (c : Int)
  | fseek (offset : Int) (whence : Whence)
  | ftell
  | fflush
  deriving DecidableEq

namespace Stream

/-- The result of a call and the stream after it. It is `none` if a system call fails. -/
def step (s : Stream) : StreamOp → Option (Int × Stream)
  | .fgetc => s.fgetcUnlocked
  | .fputc c => s.fputcUnlocked c
  | .ungetc c => some (s.ungetcUnlocked c)
  | .fseek offset whence => s.fseeko offset whence
  | .ftell => some (s.ftello, s)
  | .fflush => s.fflushUnlocked

def run (s : Stream) : List StreamOp → Option (List Int × Stream)
  | [] => some ([], s)
  | op :: ops => (s.step op).bind fun r => (r.2.run ops).map fun rs => (r.1 :: rs.1, rs.2)

/-- What `fdopen` with `O_RDWR` returns, with a buffer of any length as `setvbuf` sets it. -/
def opened (file : ByteFile) (offset bufLen : Nat) (lineBuf : Bool) (buffer : Buf) : Stream :=
  { error := false, atEof := false, input := true, unbuffered := false, lineBuf, canRead := true, canWrite := true
    buffer, bufPos := 0, bufSize := 0, bufLen, ungetbuf := fun _ => 0, ungotten := 0, file, offset }

end Stream

/-- A file, the position behind what was read or written last, and the character that was pushed back. -/
structure Cursor where
  file : ByteFile
  pos : Nat
  pushed : Option Byte

namespace Cursor

def tell (a : Cursor) : Int := a.pos - a.pushed.elim 0 fun _ => 1

def base (a : Cursor) : Whence → Int
  | .set => 0
  | .cur => a.tell
  | .fromEnd => a.file.size

def step (a : Cursor) : StreamOp → Int × Cursor
  | .fgetc =>
    match a.pushed, a.file.get? a.pos with
    | some b, _ => (result b, { a with pushed := none })
    | none, some b => (result b, { a with pos := a.pos + 1 })
    | none, none => (eof, a)
  | .fputc c =>
    (c, { file := a.file.put a.tell.toNat (ofInt 8 c), pos := a.tell.toNat + 1, pushed := none })
  | .ungetc c => if c = eof then (eof, a) else (c, { a with pushed := some (ofInt 8 c) })
  | .fseek offset whence => (0, { a with pos := (a.base whence + offset).toNat, pushed := none })
  | .ftell => (a.tell, a)
  | .fflush => (0, { a with pos := a.tell.toNat, pushed := none })

theorem step_fgetc_byte {a : Cursor} (hnone : a.pushed = none) (hlt : a.pos < a.file.size) :
    a.step .fgetc = (result (a.file.bytes a.pos), { a with pos := a.pos + 1 }) := by
  rw [step, hnone, ByteFile.get?, if_pos hlt]

def run (a : Cursor) : List StreamOp → List Int × Cursor
  | [] => ([], a)
  | op :: ops => ((a.step op).1 :: ((a.step op).2.run ops).1, ((a.step op).2.run ops).2)

/-- The calls of a caller that pushes back one character at most, and for which `lseek` succeeds. -/
def Legal (a : Cursor) : StreamOp → Prop
  | .ungetc _ => a.pushed = none
  | .fseek offset whence => 0 ≤ a.base whence + offset
  | _ => True

instance (a : Cursor) (op : StreamOp) : Decidable (a.Legal op) := by
  cases op <;> (unfold Legal; infer_instance)

end Cursor

namespace Stream

/-- `ftell` finds nothing left or pushed back, a character is pushed back only while the stream reads, and nothing but
`fgetc`, `ftell` and an absolute `fseek` comes before it is read again. -/
def Safe (s : Stream) : StreamOp → Prop
  | .fgetc => True
  | .fputc _ => s.ungotten = 0
  | .ungetc c => c = eof ∨ s.input = true
  | .fseek _ whence => whence = .cur → s.ungotten = 0
  | .ftell => s.input = true → s.bufPos = s.bufSize ∧ s.ungotten = 0
  | .fflush => s.ungotten = 0

/-- All calls are legal, and are made in a state in which they are safe. -/
def AllSafe (s : Stream) (a : Cursor) : List StreamOp → Prop
  | [] => True
  | op :: ops => a.Legal op ∧ s.Safe op ∧ ∀ r ∈ s.step op, r.2.AllSafe (a.step op).2 ops

instance (s : Stream) (op : StreamOp) : Decidable (s.Safe op) := by
  cases op <;> (unfold Safe; infer_instance)

instance decidableAllSafe (s : Stream) (a : Cursor) : (ops : List StreamOp) → Decidable (s.AllSafe a ops)
  | [] => .isTrue trivial
  | op :: ops =>
    have (r : Int × Stream) : Decidable (r.2.AllSafe (a.step op).2 ops) := decidableAllSafe r.2 (a.step op).2 ops
    inferInstanceAs (Decidable (a.Legal op ∧ s.Safe op ∧ ∀ r ∈ s.step op, r.2.AllSafe (a.step op).2 ops))

structure Buffered (s : Stream) : Prop where
  noError : s.error = false
  buffered : s.unbuffered = false
  canRead : s.canRead = true
  canWrite : s.canWrite = true
  room : 0 < s.bufLen
  limit : s.bufLen ≤ 2 ^ 31

/-- The buffer holds the bytes in front of the offset. -/
structure Reading (s : Stream) (a : Cursor) : Prop where
  file : s.file = a.file
  pos_le : s.bufPos ≤ s.bufSize
  size_le : s.bufSize ≤ s.bufLen
  pos : a.pos + (s.bufSize - s.bufPos) = s.offset
  start : s.bufSize ≤ s.offset
  inside : 0 < s.bufSize → s.offset ≤ s.file.size
  bytes : ∀ i < s.bufSize, s.buffer i = s.file.bytes (s.offset - s.bufSize + i)
  pushed : s.ungotten = 0 ∧ a.pushed = none ∨ s.ungotten = 1 ∧ a.pushed = some (s.ungetbuf 0)

/-- The buffer holds the bytes to be written at the offset. -/
structure Writing (s : Stream) (a : Cursor) : Prop where
  file : a.file = s.file.write s.offset s.bufPos s.buffer
  pos : a.pos = s.offset + s.bufPos
  pos_le : s.bufPos ≤ s.bufLen
  empty : s.bufSize = 0
  pushed : s.ungotten = 0 ∧ a.pushed = none

structure Stands (s : Stream) (a : Cursor) : Prop where
  buffered : s.Buffered
  reading : s.input = true → s.Reading a
  writing : s.input = false → s.Writing a

structure Settled (s : Stream) (file : ByteFile) (pos : Nat) : Prop where
  buffered : s.Buffered
  file : s.file = file
  offset : s.offset = pos
  bufPos : s.bufPos = 0
  bufSize : s.bufSize = 0
  ungotten : s.ungotten = 0

section Steps

variable {s t : Stream} {a : Cursor}

theorem Settled.setInput {file : ByteFile} {pos : Nat} (hs : s.Settled file pos) (b : Bool) :
    Settled { s with input := b } file pos where
  buffered := { hs.buffered with }
  file := hs.file
  offset := hs.offset
  bufPos := hs.bufPos
  bufSize := hs.bufSize
  ungotten := hs.ungotten

theorem Settled.stands (hs : s.Settled a.file a.pos) (hpushed : a.pushed = none) : s.Stands a where
  buffered := hs.buffered
  reading _ :=
    { file := hs.file
      pos_le := (hs.bufPos.trans hs.bufSize.symm).le
      size_le := by rw [hs.bufSize]; exact Nat.zero_le _
      pos := by rw [hs.bufSize, hs.offset]; omega
      start := by rw [hs.bufSize]; exact Nat.zero_le _
      inside hpos := absurd hpos (by rw [hs.bufSize]; exact lt_irrefl 0)
      bytes i hi := absurd hi (by rw [hs.bufSize]; exact Nat.not_lt_zero i)
      pushed := Or.inl ⟨hs.ungotten, hpushed⟩ }
  writing _ :=
    { file := by rw [hs.bufPos, ByteFile.write_zero, hs.file]
      pos := by rw [hs.bufPos, hs.offset, add_zero]
      pos_le := by rw [hs.bufPos]; exact Nat.zero_le _
      empty := hs.bufSize
      pushed := ⟨hs.ungotten, hpushed⟩ }

theorem delta_eq (hle : s.bufPos ≤ s.bufSize) (hlimit : s.bufSize ≤ 2 ^ 31) :
    (ofNat 32 s.bufPos - ofNat 32 s.bufSize).toInt = (s.bufPos : Int) - s.bufSize := by
  rw [BitVec.toInt_eq_toNat_cond, BitVec.toNat_sub, toNat_ofNat, toNat_ofNat]
  split_ifs <;> omega

theorem Reading.fflush (hs : s.Reading a) (hbuf : s.Buffered) (hin : s.input = true) :
    ∃ t, s.fflushUnlocked = some (0, t) ∧ t.input = s.input ∧ t.Settled a.file a.pos := by
  have hlimit := hbuf.limit
  have hle := hs.pos_le
  have hsize := hs.size_le
  have hpos := hs.pos
  have hseek : (if (s.bufPos : Int) - s.bufSize ≠ 0 then s.lseek (s.bufPos - s.bufSize) .cur else some s) =
      some { s with offset := a.pos } := by
    by_cases heq : (s.bufPos : Int) - s.bufSize = 0
    · rw [if_neg (not_not.mpr heq), show a.pos = s.offset by omega]
    · have htarget : (s.offset : Int) + (s.bufPos - s.bufSize) = a.pos := by omega
      rw [if_pos heq, lseek, base, htarget, if_neg (by omega), Int.toNat_natCast]
  refine ⟨{ s with offset := a.pos, bufPos := 0, bufSize := 0, ungotten := 0 }, ?_, rfl,
    { hbuf with }, hs.file, rfl, rfl, rfl, rfl⟩
  rw [fflushUnlocked, if_pos hin, delta_eq hle (by omega)]
  show (if (s.bufPos : Int) - s.bufSize ≠ 0 then s.lseek (s.bufPos - s.bufSize) .cur else some s).map _ = _
  rw [hseek, map_some]

theorem Writing.fflush (hs : s.Writing a) (hbuf : s.Buffered) (hin : s.input = false) :
    ∃ t, s.fflushUnlocked = some (0, t) ∧ t.input = s.input ∧ t.Settled a.file a.pos := by
  rw [fflushUnlocked, if_neg (by rw [hin]; exact Bool.false_ne_true)]
  by_cases hpos : 0 < s.bufPos
  · exact ⟨_, if_pos hpos, rfl, { hbuf with }, hs.file.symm, hs.pos.symm, rfl, hs.empty, rfl⟩
  · have hzero : s.bufPos = 0 := by omega
    refine ⟨_, if_neg hpos, rfl, { hbuf with }, ?_, ?_, hzero, hs.empty, rfl⟩
    · rw [hs.file, hzero, ByteFile.write_zero]
    · rw [hs.pos, hzero, add_zero]

theorem Stands.fflush (hs : s.Stands a) :
    ∃ t, s.fflushUnlocked = some (0, t) ∧ t.input = s.input ∧ t.Settled a.file a.pos := by
  cases hin : s.input with
  | true =>
    rw [← hin]
    exact (hs.reading hin).fflush hs.buffered hin
  | false =>
    rw [← hin]
    exact (hs.writing hin).fflush hs.buffered hin

theorem Stands.pushed (hs : s.Stands a) : s.ungotten = 0 ∧ a.pushed = none ∨
    s.input = true ∧ s.ungotten = 1 ∧ a.pushed = some (s.ungetbuf 0) := by
  cases hin : s.input with
  | true => exact (hs.reading hin).pushed.imp_right fun h => ⟨rfl, h⟩
  | false => exact Or.inl (hs.writing hin).pushed

theorem Stands.pushed_eq_none (hs : s.Stands a) (hzero : s.ungotten = 0) : a.pushed = none := by
  obtain ⟨-, hnone⟩ | ⟨-, hone, -⟩ := hs.pushed
  · exact hnone
  · omega

theorem tell_eq (hnone : a.pushed = none) : a.tell = a.pos := by
  rw [Cursor.tell, hnone, elim_none, Int.sub_zero]

section

variable (hs : s.Reading a) (hbuf : s.Buffered) (hin : s.input = true)
include hs hbuf hin

theorem Reading.fill (hnone : a.pushed = none)
    (hzero : s.ungotten = 0) (hused : s.bufSize ≤ s.bufPos) (hlt : a.pos < a.file.size) :
    s.nextByte.1 = result (a.file.bytes a.pos) ∧ s.nextByte.2.Stands { a with pos := a.pos + 1 } := by
  have hpos := hs.pos
  have hroom := hbuf.room
  have hoffset : s.offset = a.pos := by omega
  rw [← hs.file] at hlt
  obtain ⟨n, hn⟩ : ∃ n, min s.bufLen (s.file.size - s.offset) = n := ⟨_, rfl⟩
  have hbytes : ∀ i < n, copy s.buffer 0 (fun i => s.file.bytes (s.offset + i)) n i = s.file.bytes (s.offset + i) := by
    intro i hi
    rw [copy, if_pos (by omega), Nat.sub_zero]
  have hnext : s.nextByte = (result (copy s.buffer 0 (fun i => s.file.bytes (s.offset + i)) n 0),
      { s with buffer := copy s.buffer 0 (fun i => s.file.bytes (s.offset + i)) n, offset := s.offset + n, bufPos := 1
               bufSize := n }) := by
    rw [Stream.nextByte, if_pos hused, sysRead, hn]
    exact if_neg (by omega)
  rw [hnext, hbytes 0 (by omega), hs.file, hoffset]
  refine ⟨rfl, { hbuf with }, fun _ => ?_, fun hout => absurd (hin.symm.trans hout) (by decide)⟩
  exact
    { file := rfl
      pos_le := show 1 ≤ n by omega
      size_le := show n ≤ s.bufLen by omega
      pos := show a.pos + 1 + (n - 1) = a.pos + n by omega
      start := Nat.le_add_left ..
      inside := fun _ => show a.pos + n ≤ a.file.size by rw [← hs.file]; omega
      bytes := fun i hi => by
        have hbyte := hbytes i hi
        rw [hs.file, hoffset] at hbyte
        exact hbyte.trans (congrArg a.file.bytes (show a.pos + i = a.pos + n - n + i by omega))
      pushed := Or.inl ⟨hzero, hnone⟩ }

theorem Reading.atEnd (hused : s.bufSize ≤ s.bufPos)
    (hend : a.file.size ≤ a.pos) : s.nextByte.1 = eof ∧ s.nextByte.2.Stands a := by
  have hpos := hs.pos
  have hrd : min s.bufLen (s.file.size - s.offset) = 0 := by
    rw [hs.file]
    omega
  have hnext : s.nextByte = (eof, { s with atEof := true }) := by
    rw [Stream.nextByte, if_pos hused, sysRead, hrd]
    rfl
  rw [hnext]
  exact ⟨rfl, { hbuf with }, fun _ => { hs with }, fun hout => absurd (hin.symm.trans hout) (by decide)⟩

theorem Reading.left (hnone : a.pushed = none)
    (hzero : s.ungotten = 0) (hleft : s.bufPos < s.bufSize) : a.pos < a.file.size ∧
      s.nextByte.1 = result (a.file.bytes a.pos) ∧ s.nextByte.2.Stands { a with pos := a.pos + 1 } := by
  have hpos := hs.pos
  have hstart := hs.start
  have hinside := hs.inside (by omega)
  have hindex : s.offset - s.bufSize + s.bufPos = a.pos := by omega
  rw [Stream.nextByte, if_neg (by omega), hs.bytes _ hleft, hindex, ← hs.file]
  refine ⟨by omega, rfl, { hbuf with }, fun _ => ?_, fun hout => absurd (hin.symm.trans hout) (by decide)⟩
  exact { hs with
    file := rfl
    pos_le := show s.bufPos + 1 ≤ s.bufSize by omega
    pos := show a.pos + 1 + (s.bufSize - (s.bufPos + 1)) = s.offset by omega
    pushed := Or.inl ⟨hzero, hnone⟩ }

theorem Reading.nextByte (hzero : s.ungotten = 0) :
    s.nextByte.1 = (a.step .fgetc).1 ∧ s.nextByte.2.Stands (a.step .fgetc).2 := by
  have hnone : a.pushed = none := Stands.pushed_eq_none ⟨hbuf, fun _ => hs, fun hout => by simp_all⟩ hzero
  by_cases hlt : a.pos < a.file.size
  · rw [Cursor.step_fgetc_byte hnone hlt]
    by_cases hused : s.bufSize ≤ s.bufPos
    · exact hs.fill hbuf hin hnone hzero hused hlt
    · exact (hs.left hbuf hin hnone hzero (by omega)).2
  · rw [Cursor.step, hnone, ByteFile.get?, if_neg hlt]
    by_cases hused : s.bufSize ≤ s.bufPos
    · exact hs.atEnd hbuf hin hused (by omega)
    · exact absurd (hs.left hbuf hin hnone hzero (by omega)).1 hlt

end

theorem Stands.fgetc (hs : s.Stands a) :
    ∃ t, s.step .fgetc = some ((a.step .fgetc).1, t) ∧ t.Stands (a.step .fgetc).2 := by
  rw [step, fgetcUnlocked, hs.buffered.canRead, if_neg Bool.true_eq_false.mp]
  cases hin : s.input with
  | true =>
    have hreading := hs.reading hin
    rw [if_neg (by decide), map_some]
    obtain ⟨hzero, -⟩ | ⟨-, hone, hpushed⟩ := hs.pushed
    · rw [if_neg (by omega)]
      obtain ⟨hresult, hstands⟩ := hreading.nextByte hs.buffered hin hzero
      exact ⟨_, congrArg some (Prod.ext hresult rfl), hstands⟩
    · rw [hone, Cursor.step, hpushed]
      refine ⟨_, rfl, { hs.buffered with }, fun _ => ?_, fun hout => absurd (hin.symm.trans hout) (by decide)⟩
      exact { hreading with pushed := Or.inl ⟨rfl, rfl⟩ }
  | false =>
    obtain ⟨t, hflush, -, hsettled⟩ := hs.fflush
    have hnone := hs.pushed_eq_none (hs.writing hin).pushed.1
    have hstands := (hsettled.setInput true).stands hnone
    have hzero : ¬ 0 < t.ungotten := by
      rw [hsettled.ungotten]
      exact lt_irrefl 0
    obtain ⟨hresult, hnext⟩ := (hstands.reading rfl).nextByte hstands.buffered rfl hsettled.ungotten
    rw [hflush]
    exact ⟨_, (congrArg some (if_neg hzero)).trans (congrArg some (Prod.ext hresult rfl)), hnext⟩

theorem step_fputc (hnone : a.pushed = none) (c : Int) :
    a.step (.fputc c) = (c, ⟨a.file.put a.pos (ofInt 8 c), a.pos + 1, none⟩) := by
  rw [Cursor.step, tell_eq hnone, Int.toNat_natCast]

section

variable (hs : s.Stands a)
include hs

theorem Stands.store (hin : s.input = false) (hroom : s.bufPos < s.bufLen) (c : Int) :
    ∃ t, s.store c = some (c, t) ∧ t.Stands (a.step (.fputc c)).2 := by
  have hwriting := hs.writing hin
  have hstands : (s.keep (ofInt 8 c)).Stands (a.step (.fputc c)).2 := by
    rw [step_fputc hwriting.pushed.2]
    refine ⟨{ hs.buffered with }, fun hin' => absurd (hin.symm.trans hin') (by decide), fun _ => ?_⟩
    exact
      { file := by
          rw [hwriting.file, hwriting.pos]
          exact ByteFile.put_write _
        pos := by rw [hwriting.pos]; exact add_assoc ..
        pos_le := hroom
        empty := hwriting.empty
        pushed := ⟨hwriting.pushed.1, rfl⟩ }
  rw [Stream.store, hs.buffered.buffered]
  by_cases hline : c = 10 ∧ s.lineBuf = true
  · obtain ⟨u, hflush, -, hsettled⟩ := hstands.fflush
    have hpushed : (a.step (.fputc c)).2.pushed = none := rfl
    refine ⟨u, ?_, hsettled.stands hpushed⟩
    rw [if_pos hline, flushAfter, hflush]
    rfl
  · exact ⟨_, if_neg hline, hstands⟩

theorem Stands.storeOrFlush (hin : s.input = false) (c : Int) :
    ∃ t, s.storeOrFlush c = some (c, t) ∧ t.Stands (a.step (.fputc c)).2 := by
  have hroom := hs.buffered.room
  rw [Stream.storeOrFlush]
  by_cases hfull : (s.bufLen + 2 ^ 32 - 1) % 2 ^ 32 ≤ s.bufPos
  · obtain ⟨t, hflush, htin, hsettled⟩ := hs.fflush
    have hstands := hsettled.stands (hs.writing hin).pushed.2
    rw [if_pos hfull, hflush]
    exact hstands.store (htin.trans hin) (by rw [hsettled.bufPos]; exact hsettled.buffered.room) c
  · rw [if_neg hfull]
    exact hs.store hin (by omega) c

theorem Stands.fputc {c : Int} (hsafe : s.Safe (.fputc c)) :
    ∃ t, s.step (.fputc c) = some ((a.step (.fputc c)).1, t) ∧ t.Stands (a.step (.fputc c)).2 := by
  have hresult : (a.step (.fputc c)).1 = c := rfl
  rw [step, fputcUnlocked, hs.buffered.canWrite, if_neg Bool.true_eq_false.mp]
  cases hin : s.input with
  | true =>
    obtain ⟨t, hflush, -, hsettled⟩ := hs.fflush
    rw [if_pos rfl, hflush, map_some, bind_some]
    exact ((hsettled.setInput false).stands (hs.pushed_eq_none hsafe)).storeOrFlush rfl c
  | false =>
    rw [if_neg Bool.false_ne_true, Option.bind_some]
    exact hs.storeOrFlush hin c

theorem Stands.ungetc {c : Int} (hlegal : a.Legal (.ungetc c)) (hsafe : s.Safe (.ungetc c)) :
    ∃ t, s.step (.ungetc c) = some ((a.step (.ungetc c)).1, t) ∧ t.Stands (a.step (.ungetc c)).2 := by
  rw [step, ungetcUnlocked, Cursor.step]
  by_cases heof : c = eof
  · rw [if_pos heof, if_pos heof]
    exact ⟨s, rfl, hs⟩
  · have hin : s.input = true := hsafe.resolve_left heof
    have hreading := hs.reading hin
    have hzero : s.ungotten = 0 := by
      obtain ⟨hzero, -⟩ | ⟨-, hpushed⟩ := hreading.pushed
      · exact hzero
      · rw [show a.pushed = none from hlegal] at hpushed
        cases hpushed
    rw [if_neg heof, if_neg heof, hzero]
    refine ⟨_, rfl, { hs.buffered with }, fun _ => ?_, fun hout => absurd (hin.symm.trans hout) (by decide)⟩
    refine { hreading with pushed := Or.inr ⟨rfl, ?_⟩ }
    show some (ofInt 8 c) = some (update s.ungetbuf 0 (ofInt 8 c) 0)
    rw [update_self]

theorem Stands.fseek {offset : Int} {whence : Whence} (hlegal : a.Legal (.fseek offset whence))
    (hsafe : s.Safe (.fseek offset whence)) :
    ∃ t, s.step (.fseek offset whence) = some ((a.step (.fseek offset whence)).1, t) ∧
      t.Stands (a.step (.fseek offset whence)).2 := by
  obtain ⟨t, hflush, -, hsettled⟩ := hs.fflush
  obtain ⟨u, hu⟩ : ∃ u, u = { t with bufPos := 0, bufSize := 0, ungotten := 0, atEof := false } := ⟨_, rfl⟩
  have hbase : u.base whence = a.base whence := by
    rw [hu]
    cases whence with
    | set => rfl
    | cur =>
      show (t.offset : Int) = a.tell
      rw [hsettled.offset, tell_eq (hs.pushed_eq_none (hsafe rfl))]
    | fromEnd => exact congrArg (fun f : ByteFile => (f.size : Int)) hsettled.file
  have htarget : ¬ a.base whence + offset < 0 := Int.not_lt.mpr hlegal
  refine ⟨{ u with offset := (a.base whence + offset).toNat }, ?_, ?_⟩
  · rw [step, fseeko, hflush]
    show (Stream.lseek { t with bufPos := 0, bufSize := 0, ungotten := 0, atEof := false } offset whence).map _ = _
    rw [← hu, lseek, hbase, if_neg htarget]
    rfl
  · rw [hu]
    have hmoved : Settled { t with bufPos := 0, bufSize := 0, ungotten := 0, atEof := false
                                   offset := (a.base whence + offset).toNat } a.file _ :=
      ⟨{ hsettled.buffered with }, hsettled.file, rfl, rfl, rfl, rfl⟩
    exact Settled.stands hmoved rfl

theorem Stands.ftell (hsafe : s.Safe .ftell) : s.ftello = a.tell := by
  rw [ftello, hs.buffered.noError, if_neg Bool.false_ne_true]
  cases hin : s.input with
  | true =>
    obtain ⟨hpos, hzero⟩ := hsafe hin
    have hoffset := (hs.reading hin).pos
    rw [if_pos rfl, hpos, hzero, tell_eq (hs.pushed_eq_none hzero), BitVec.sub_self]
    simp only [BitVec.neg_zero, BitVec.sub_zero, toNat_ofNat]
    omega
  | false =>
    have hwriting := hs.writing hin
    rw [if_neg Bool.false_ne_true, tell_eq hwriting.pushed.2, hwriting.pos, Int.natCast_add]

theorem Stands.fflush_safe (hsafe : s.Safe .fflush) :
    ∃ t, s.step .fflush = some ((a.step .fflush).1, t) ∧ t.Stands (a.step .fflush).2 := by
  obtain ⟨t, hflush, -, hsettled⟩ := hs.fflush
  refine ⟨t, hflush, Settled.stands ?_ rfl⟩
  rw [Cursor.step, tell_eq (hs.pushed_eq_none hsafe)]
  exact hsettled

theorem Stands.step {op : StreamOp} (hlegal : a.Legal op) (hsafe : s.Safe op) :
    ∃ t, s.step op = some ((a.step op).1, t) ∧ t.Stands (a.step op).2 := by
  cases op with
  | fgetc => exact hs.fgetc
  | fputc c => exact hs.fputc hsafe
  | ungetc c => exact hs.ungetc hlegal hsafe
  | fseek offset whence => exact hs.fseek hlegal hsafe
  | ftell => exact ⟨s, congrArg some (Prod.ext (hs.ftell hsafe) rfl), hs⟩
  | fflush => exact hs.fflush_safe hsafe

theorem Stands.run {ops : List StreamOp} (hsafe : s.AllSafe a ops) :
    ∃ t, s.run ops = some ((a.run ops).1, t) ∧ t.Stands (a.run ops).2 := by
  induction ops generalizing s a with
  | nil => exact ⟨s, rfl, hs⟩
  | cons op ops ih =>
    obtain ⟨hlegal, hone, hrest⟩ := hsafe
    obtain ⟨t, hstep, hstands⟩ := hs.step hlegal hone
    obtain ⟨u, hrun, hstands'⟩ := ih hstands (hrest _ hstep)
    refine ⟨u, ?_, hstands'⟩
    rw [Stream.run, hstep, bind_some, hrun]
    rfl

end

end Steps

theorem opened_stands (file : ByteFile) (offset : Nat) {bufLen : Nat} (hroom : 0 < bufLen) (hlimit : bufLen ≤ 2 ^ 31)
    (lineBuf : Bool) (buffer : Buf) : (opened file offset bufLen lineBuf buffer).Stands ⟨file, offset, none⟩ :=
  Settled.stands ⟨⟨rfl, rfl, rfl, rfl, hroom, hlimit⟩, rfl, rfl, rfl, rfl, rfl⟩ rfl

end Stream

/-- Over safe calls on a stream with a buffer of at most 2 GiB each call has the result it has for the cursor, and a
flush leaves the bytes of the cursor in the file. -/
theorem stream_refines_file (file : ByteFile) (offset : Nat) {bufLen : Nat} (hroom : 0 < bufLen)
    (hlimit : bufLen ≤ 2 ^ 31) (lineBuf : Bool) (buffer : Buf) (ops : List StreamOp)
    (hsafe : (Stream.opened file offset bufLen lineBuf buffer).AllSafe ⟨file, offset, none⟩ ops) :
    ∃ t u, (Stream.opened file offset bufLen lineBuf buffer).run ops =
        some ((Cursor.run ⟨file, offset, none⟩ ops).1, t) ∧
      t.fflushUnlocked = some (0, u) ∧ u.file = (Cursor.run ⟨file, offset, none⟩ ops).2.file := by
  obtain ⟨t, hrun, hstands⟩ := (Stream.opened_stands file offset hroom hlimit lineBuf buffer).run hsafe
  obtain ⟨u, hflush, -, hsettled⟩ := hstands.fflush
  exact ⟨t, u, hrun, hflush, hsettled.file⟩

/-- The file with the bytes `a` and `b`. -/
def ab : ByteFile where
  size := 2
  bytes p := if p = 0 then 97 else if p = 1 then 98 else 0
  zero p hp := by rw [if_neg (by omega), if_neg (by omega)]

def abStream : Stream := .opened ab 0 2048 false fun _ => 0

/-- A character is read, pushed back and read again, the next one is written over, and `ftell` then reports 2. -/
theorem stream_refines_file_ab :
    ∃ t u, abStream.run [.fgetc, .ungetc 120, .fgetc, .fputc 99, .ftell, .fflush, .fgetc] =
        some ([97, 120, 120, 99, 2, 0, -1], t) ∧
      t.fflushUnlocked = some (0, u) ∧ u.file.size = 2 ∧ u.file.bytes 0 = 97 ∧ u.file.bytes 1 = 99 := by
  obtain ⟨t, u, hrun, hflush, hfile⟩ := stream_refines_file ab 0 (by decide : 0 < 2048) (by decide) false (fun _ => 0)
    [.fgetc, .ungetc 120, .fgetc, .fputc 99, .ftell, .fflush, .fgetc] (by decide)
  refine ⟨t, u, hrun, hflush, ?_, ?_, ?_⟩
  · rw [hfile]
    rfl
  · rw [hfile]
    rfl
  · rw [hfile]
    rfl

/-- `ftell` is too large by `2 ^ 32`, a character pushed back after a write is lost, and a relative `fseek` after a push
back stands one byte too far. -/
theorem tell_wraps_and_push_back_lost :
    ((abStream.run [.fgetc, .ftell]).map (·.1) = some [97, 4294967297] ∧
      (Cursor.run ⟨ab, 0, none⟩ [.fgetc, .ftell]).1 = [97, 1]) ∧
    ((abStream.run [.fputc 120, .ungetc 121, .fgetc]).map (·.1) = some [120, 121, 98] ∧
      (Cursor.run ⟨ab, 0, none⟩ [.fputc 120, .ungetc 121, .fgetc]).1 = [120, 121, 121]) ∧
    ((abStream.run [.fgetc, .ungetc 121, .fseek 0 .cur, .fgetc]).map (·.1) = some [97, 121, 0, 98] ∧
      (Cursor.run ⟨ab, 0, none⟩ [.fgetc, .ungetc 121, .fseek 0 .cur, .fgetc]).1 = [97, 121, 0, 97]) := by
  decide +kernel

end Kairax.Libc
