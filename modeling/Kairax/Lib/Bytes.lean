import Mathlib.Data.BitVec
import Mathlib.Data.List.Pairwise

/-!
# Byte buffers

A buffer is a function from offsets to bytes. Fields are little-endian, blocks of bytes are copied, and bits are
numbered from the lowest of the first byte on. What is written is read back, and nothing else changes.
-/

namespace Kairax.Lib

open List BitVec Function

abbrev Byte := BitVec 8

abbrev Buf := Nat → Byte

/-- The little-endian number of `len` bytes. -/
def readLE (buf : Buf) (o : Nat) : Nat → Nat
  | 0 => 0
  | len + 1 => (buf o).toNat + 256 * readLE buf (o + 1) len

def writeLE (buf : Buf) (o len x : Nat) : Buf := fun p =>
  if o ≤ p ∧ p < o + len then BitVec.ofNat 8 (x / 256 ^ (p - o)) else buf p

/-- `memcpy` of `len` bytes to an offset. -/
def copy (buf : Buf) (o : Nat) (src : Buf) (len : Nat) : Buf := fun p =>
  if o ≤ p ∧ p < o + len then src (p - o) else buf p

/-- The first `n` bytes, with zeros behind them. -/
def clip (n : Nat) (buf : Buf) : Buf := fun p => if p < n then buf p else 0

variable {i len' n p x : Nat} {src buf buf' : Buf}

section Fields

variable {o len : Nat}

theorem readLE_congr (hsame : ∀ p, o ≤ p → p < o + len → buf p = buf' p) : readLE buf o len = readLE buf' o len := by
  induction len generalizing o with
  | zero => rfl
  | succ len ih =>
    rw [readLE, readLE, hsame o le_rfl (by omega)]
    rw [ih fun p hlow hhigh => hsame p (by omega) (by omega)]

theorem readLE_lt (buf : Buf) (o len : Nat) : readLE buf o len < 256 ^ len := by
  induction len generalizing o with
  | zero => exact Nat.one_pos
  | succ len ih =>
    have hrest := ih (o + 1)
    rw [readLE]
    omega

theorem readLE_zero (o len : Nat) : readLE (fun _ => 0) o len = 0 := by
  induction len generalizing o with
  | zero => rfl
  | succ len ih =>
    rw [readLE, ih]
    rfl

theorem readLE_writeLE (buf : Buf) (o len x : Nat) : readLE (writeLE buf o len x) o len = x % 256 ^ len := by
  have hread (o' k : Nat) (hk : o' = o + k) (n : Nat) (hn : k + n = len) :
      readLE (writeLE buf o len x) o' n = x / 256 ^ k % 256 ^ n := by
    induction n generalizing o' k with
    | zero => rw [readLE, pow_zero, Nat.mod_one]
    | succ n ih =>
      have hsplit : x / 256 ^ k % 256 ^ (n + 1) = x / 256 ^ k % 256 + 256 * (x / 256 ^ k / 256 % 256 ^ n) := by
        rw [Nat.pow_succ', Nat.mod_mul]
      have hbyte : (writeLE buf o len x o').toNat = x / 256 ^ k % 256 := by
        rw [writeLE, if_pos (by omega), show o' - o = k by omega, toNat_ofNat]
      rw [readLE, ih (o' + 1) (k + 1) (by omega) (by omega), hbyte, hsplit, pow_succ, Nat.div_div_eq_div_mul]
  rw [hread o 0 rfl len (zero_add len), pow_zero, Nat.div_one]

theorem writeLE_of_outside (hout : p < o ∨ o + len ≤ p) : writeLE buf o len x p = buf p := by
  rw [writeLE, if_neg (by omega)]

theorem readLE_writeLE_of_disjoint {o' : Nat} (hapart : o' + len' ≤ o ∨ o + len ≤ o') :
    readLE (writeLE buf o len x) o' len' = readLE buf o' len' := by
  apply readLE_congr
  intro p hlow hhigh
  exact writeLE_of_outside (by omega)

theorem clip_apply (hp : p < n) : clip n buf p = buf p := if_pos hp

theorem clip_of_le (hp : n ≤ p) : clip n buf p = 0 := if_neg (not_lt.mpr hp)

theorem clip_clip (n : Nat) (buf : Buf) : clip n (clip n buf) = clip n buf := by
  funext p
  rw [clip, clip]
  split_ifs <;> rfl

theorem readLE_clip (hin : o + len ≤ n) : readLE (clip n buf) o len = readLE buf o len := by
  apply readLE_congr
  intro p hlow hhigh
  exact clip_apply (by omega)

theorem clip_writeLE (hin : o + len ≤ n) : clip n (writeLE buf o len x) = writeLE (clip n buf) o len x := by
  funext p
  rw [clip, writeLE, writeLE, clip]
  split_ifs with hp hfield hfield
  · rfl
  · rfl
  · omega
  · rfl

theorem copy_of_outside (hout : p < o ∨ o + len ≤ p) : copy buf o src len p = buf p := by
  rw [copy, if_neg (by omega)]

theorem copy_of_inside (hin : p < len) : copy buf o src len (o + p) = src p := by
  rw [copy, if_pos (by omega), Nat.add_sub_cancel_left]

theorem copy_append {src' : Buf} (all : Buf) (hleft : ∀ p < len, src p = all p)
    (hright : ∀ p < len', src' p = all (len + p)) :
    copy (copy buf o src len) (o + len) src' len' = copy buf o all (len + len') := by
  funext p
  rw [copy, copy, copy]
  by_cases hin : o + len ≤ p ∧ p < o + len + len'
  · rw [if_pos hin, if_pos (by omega), hright _ (by omega)]
    exact congrArg all (by omega)
  · rw [if_neg hin]
    by_cases hin' : o ≤ p ∧ p < o + len
    · rw [if_pos hin', if_pos (by omega), hleft _ (by omega)]
    · rw [if_neg hin', if_neg (by omega)]

theorem copy_zero : copy buf o src 0 = buf := by
  funext p
  exact copy_of_outside (by omega)

theorem readLE_copy_of_disjoint {o' : Nat} (hapart : o' + len' ≤ o ∨ o + len ≤ o') :
    readLE (copy buf o src len) o' len' = readLE buf o' len' := by
  apply readLE_congr
  intro p hlow hhigh
  exact copy_of_outside (by omega)

end Fields

/-- Bit `i % 8` of byte `i / 8`. -/
def bitAt (buf : Buf) (i : Nat) : Bool := (buf (i / 8)).getLsbD (i % 8)

def setBit (buf : Buf) (i : Nat) : Buf := update buf (i / 8) (buf (i / 8) ||| twoPow 8 (i % 8))

def clearBit (buf : Buf) (i : Nat) : Buf :=
  update buf (i / 8) (buf (i / 8) &&& ~~~twoPow 8 (i % 8))

theorem bitAt_setBit (buf : Buf) (i j : Nat) : bitAt (setBit buf i) j = if j = i then true else bitAt buf j := by
  rw [bitAt, bitAt, setBit]
  by_cases hbyte : j / 8 = i / 8
  · rw [hbyte, update_self, getLsbD_or, getLsbD_twoPow]
    by_cases hji : j = i
    · simp [hji, Nat.mod_lt]
    · rw [if_neg hji, decide_eq_false (show ¬ i % 8 = j % 8 by omega), Bool.and_false, Bool.or_false]
  · rw [update_of_ne hbyte, if_neg fun hji : j = i => hbyte (by rw [hji])]

theorem bitAt_clearBit (buf : Buf) (i j : Nat) : bitAt (clearBit buf i) j = if j = i then false else bitAt buf j := by
  rw [bitAt, bitAt, clearBit]
  by_cases hbyte : j / 8 = i / 8
  · rw [hbyte, update_self, getLsbD_and, getLsbD_not, getLsbD_twoPow]
    by_cases hji : j = i
    · simp [hji]
    · have hlt : j % 8 < 8 := Nat.mod_lt j (by decide)
      rw [if_neg hji, decide_eq_false (show ¬ i % 8 = j % 8 by omega)]
      simp [hlt]
  · rw [update_of_ne hbyte, if_neg fun hji : j = i => hbyte (by rw [hji])]

theorem bitAt_clip (hi : i < 8 * n) : bitAt (clip n buf) i = bitAt buf i := by
  rw [bitAt, bitAt, clip_apply (by omega)]

theorem testBit_readLE (buf : Buf) (o len k : Nat) (hk : k < 8 * len) :
    (readLE buf o len).testBit k = bitAt buf (8 * o + k) := by
  induction len generalizing o k with
  | zero => omega
  | succ len ih =>
    have hbyte : (buf o).toNat < 2 ^ 8 := (buf o).isLt
    rw [readLE, add_comm, Nat.testBit_two_pow_mul_add _ hbyte]
    split_ifs with hlow
    · rw [bitAt, show (8 * o + k) / 8 = o by omega, show (8 * o + k) % 8 = k by omega]
      rfl
    · rw [ih (o + 1) (k - 8) (by omega), show 8 * (o + 1) + (k - 8) = 8 * o + k by omega]

theorem bitAt_writeLE (buf : Buf) (o len x i : Nat) :
    bitAt (writeLE buf o len x) i =
      if 8 * o ≤ i ∧ i < 8 * (o + len) then x.testBit (i - 8 * o) else bitAt buf i := by
  rw [bitAt, writeLE]
  by_cases hin : 8 * o ≤ i ∧ i < 8 * (o + len)
  · have hbit : i % 8 < 8 := Nat.mod_lt i (by decide)
    rw [if_pos (by omega), if_pos hin, getLsbD_ofNat, decide_eq_true hbit, Bool.true_and,
      show 256 = 2 ^ 8 from rfl, ← Nat.pow_mul, Nat.testBit_div_two_pow,
      show i % 8 + 8 * (i / 8 - o) = i - 8 * o by omega]
  · rw [if_neg (by omega), if_neg hin, bitAt]

theorem bitAt_writeLE_or (buf : Buf) (o len k i : Nat) (hk : k < 8 * len) :
    bitAt (writeLE buf o len (readLE buf o len ||| 2 ^ k)) i = if i = 8 * o + k then true else bitAt buf i := by
  rw [bitAt_writeLE]
  by_cases hin : 8 * o ≤ i ∧ i < 8 * (o + len)
  · rw [Nat.testBit_or, testBit_readLE buf o len _ (by omega), Nat.testBit_two_pow,
      show 8 * o + (i - 8 * o) = i by omega]
    split_ifs with hi
    · rw [decide_eq_true (by omega), Bool.or_true]
    · rw [decide_eq_false (by omega), Bool.or_false]
  · rw [if_neg hin, if_neg (by omega)]

/-- The number of clear bits among the first `n`. -/
def clearBits (buf : Buf) (n : Nat) : Nat := (range n).countP fun i => !bitAt buf i

theorem clearBits_succ (buf : Buf) (n : Nat) :
    clearBits buf (n + 1) = clearBits buf n + if bitAt buf n then 0 else 1 := by
  rw [clearBits, range_succ, countP_append, countP_singleton]
  cases bitAt buf n <;> rfl

theorem clearBits_le (buf : Buf) (n : Nat) : clearBits buf n ≤ n := by
  have hle := countP_le_length (p := fun i => !bitAt buf i) (l := range n)
  rwa [length_range] at hle

theorem clearBits_congr (hsame : ∀ i < n, bitAt buf i = bitAt buf' i) : clearBits buf n = clearBits buf' n := by
  apply countP_congr
  intro i hi
  rw [hsame i (mem_range.mp hi)]

theorem clearBits_of_set (hi : i < n) (hclear : bitAt buf i = false)
    (hset : ∀ j < n, bitAt buf' j = if j = i then true else bitAt buf j) : clearBits buf' n + 1 = clearBits buf n := by
  induction n with
  | zero => omega
  | succ n ih =>
    rw [clearBits_succ, clearBits_succ, hset n (Nat.lt_succ_self n)]
    by_cases hlast : n = i
    · have hsame : clearBits buf' i = clearBits buf i := by
        apply clearBits_congr
        intro j hj
        rw [hset j (by omega), if_neg (by omega)]
      rw [if_pos hlast, hlast, hclear, hsame]
      rfl
    · have := ih (by omega) fun j hj => hset j (by omega)
      rw [if_neg hlast]
      omega

theorem clearBits_of_clear (hi : i < n) (hset : bitAt buf i = true)
    (hclear : ∀ j < n, bitAt buf' j = if j = i then false else bitAt buf j) :
    clearBits buf' n = clearBits buf n + 1 := by
  symm
  apply clearBits_of_set hi
  · rw [hclear i hi, if_pos rfl]
  · intro j hj
    rw [hclear j hj]
    split_ifs with heq
    · rw [heq, hset]
    · rfl

theorem clearBits_lt_of_set (hi : i < n) (hset : bitAt buf i = true) : clearBits buf n < n := by
  have hclear := clearBits_of_clear hi hset fun j _ => bitAt_clearBit buf i j
  have := clearBits_le (clearBit buf i) n
  omega

theorem exists_clear_of_pos (hpos : 0 < clearBits buf n) : ∃ i < n, bitAt buf i = false := by
  obtain ⟨i, hi, hclear⟩ := countP_pos_iff.mp hpos
  exact ⟨i, mem_range.mp hi, by simpa using hclear⟩

/-- The first clear bit among `fuel` bits from `i` on. -/
def firstClear (buf : Buf) : Nat → Nat → Option Nat
  | 0, _ => none
  | fuel + 1, i => if bitAt buf i then firstClear buf fuel (i + 1) else some i

theorem bitAt_firstClear {fuel j : Nat} (hfound : firstClear buf fuel i = some j) : bitAt buf j = false := by
  induction fuel generalizing i with
  | zero => cases hfound
  | succ fuel ih =>
    rw [firstClear] at hfound
    split_ifs at hfound with hset
    · exact ih hfound
    · cases hfound
      simpa using hset

theorem exists_firstClear {fuel k : Nat} (hlow : i ≤ k) (hhigh : k < i + fuel) (hclear : bitAt buf k = false) :
    ∃ j ≤ k, firstClear buf fuel i = some j := by
  induction fuel generalizing i with
  | zero => omega
  | succ fuel ih =>
    rw [firstClear]
    split_ifs with hset
    · have hne : i ≠ k := by
        intro heq
        rw [heq, hclear] at hset
        cases hset
      exact ih (by omega) (by omega)
    · exact ⟨i, hlow, rfl⟩

end Kairax.Lib

namespace Kairax.Lib

open List

/-- The array whose blocks of `bs` bytes are given. -/
def flat (bs : Nat) (block : Nat → Buf) : Buf := fun p => block (p / bs) (p % bs)

def putBlock (bs : Nat) (arr : Buf) (i : Nat) (blk : Buf) : Buf := fun p => if p / bs = i then blk (p % bs) else arr p

/-- The blocks from `a` up to `b` are new, the others old. -/
def splice (bs : Nat) (new old : Buf) (a b : Nat) : Buf := fun p => if a * bs ≤ p ∧ p < b * bs then new p else old p

section Blocks

variable {bs : Nat} {arr new old : Buf} {a b i : Nat} {blk : Buf}

theorem flat_block {block : Nat → Buf} {q : Nat} (hq : q < bs) : flat bs block (i * bs + q) = block i q := by
  have hpos : 0 < bs := (Nat.zero_le q).trans_lt hq
  rw [flat, add_comm, Nat.add_mul_div_right _ _ hpos, Nat.div_eq_of_lt hq, zero_add, Nat.add_mul_mod_self_right,
    Nat.mod_eq_of_lt hq]

theorem flat_putBlock {block block' : Nat → Buf} (hput : ∀ j, block' j = if j = i then blk else block j) :
    flat bs block' = putBlock bs (flat bs block) i blk := by
  funext p
  rw [flat, hput, putBlock]
  split_ifs <;> rfl

theorem splice_self : splice bs new old a a = old := by
  funext p
  rw [splice, if_neg (by omega)]

theorem div_eq_iff_block (hbs : 0 < bs) {p : Nat} : p / bs = i ↔ i * bs ≤ p ∧ p < (i + 1) * bs := by
  rw [Nat.div_eq_iff hbs, add_mul]
  omega

theorem block_add_mod {p : Nat} (hp : p / bs = i) : i * bs + p % bs = p := by
  rw [← hp, Nat.div_add_mod']

theorem putBlock_splice (hbs : 0 < bs) (hab : a ≤ b) (hblk : ∀ q < bs, blk q = new (b * bs + q)) :
    putBlock bs (splice bs new old a b) b blk = splice bs new old a (b + 1) := by
  have hle : a * bs ≤ b * bs := Nat.mul_le_mul_right bs hab
  funext p
  rw [putBlock, splice, splice]
  by_cases hp : p / bs = b
  · have hrange := (div_eq_iff_block hbs).mp hp
    rw [if_pos hp, if_pos ⟨by omega, hrange.2⟩, hblk _ (Nat.mod_lt p hbs), block_add_mod hp]
  · have hrange := mt (div_eq_iff_block hbs).mpr hp
    rw [if_neg hp]
    rw [add_mul] at hrange ⊢
    by_cases hold : a * bs ≤ p ∧ p < b * bs
    · rw [if_pos hold, if_pos (by omega)]
    · rw [if_neg hold, if_neg (by omega)]

theorem splice_eq (hout : ∀ p, p < a * bs ∨ b * bs ≤ p → new p = old p) : splice bs new old a b = new := by
  funext p
  rw [splice]
  split_ifs with hp
  · rfl
  · exact (hout p (by omega)).symm

end Blocks

structure ByteFile where
  size : Nat
  bytes : Buf
  zero : ∀ p, size ≤ p → bytes p = 0

namespace ByteFile

variable {f g : ByteFile}

theorem ext_of_eq (hsize : f.size = g.size) (hbytes : f.bytes = g.bytes) : f = g := by
  cases g
  cases hsize
  cases hbytes
  rfl

def get? (f : ByteFile) (pos : Nat) : Option Byte := if pos < f.size then some (f.bytes pos) else none

def write (f : ByteFile) (offset count : Nat) (data : Buf) : ByteFile where
  size := if count = 0 then f.size else max f.size (offset + count)
  bytes := copy f.bytes offset data count
  zero p hp := by
    split_ifs at hp
    · rw [copy_of_outside (by omega), f.zero p hp]
    · rw [copy_of_outside (by omega), f.zero p (by omega)]

def put (f : ByteFile) (pos : Nat) (b : Byte) : ByteFile := f.write pos 1 fun _ => b

@[simp] theorem write_zero (f : ByteFile) (offset : Nat) (data : Buf) : f.write offset 0 data = f :=
  ext_of_eq rfl copy_zero

theorem write_append {offset count count' : Nat} {data data' : Buf} (all : Buf) (hleft : ∀ p < count, data p = all p)
    (hright : ∀ p < count', data' p = all (count + p)) :
    (f.write offset count data).write (offset + count) count' data' = f.write offset (count + count') all := by
  refine ext_of_eq ?_ (copy_append all hleft hright)
  simp only [write]
  split_ifs <;> omega

theorem put_write {offset count : Nat} {data : Buf} (b : Byte) :
    (f.write offset count data).put (offset + count) b =
      f.write offset (count + 1) (Function.update data count b) := by
  refine write_append _ (fun p hp => ?_) (fun p hp => ?_)
  · rw [Function.update_of_ne hp.ne]
  · rw [show count + p = count by omega, Function.update_self]

end ByteFile

/-- Data of which the bytes before the offset have been read. -/
structure Buffer where
  data : List Byte
  offset : Nat
  deriving DecidableEq

def unread (queue : List Buffer) : List Byte := queue.flatMap fun buffer => buffer.data.drop buffer.offset

theorem unread_cons (buffer : Buffer) (queue : List Buffer) :
    unread (buffer :: queue) = buffer.data.drop buffer.offset ++ unread queue := rfl

theorem unread_concat (queue : List Buffer) (data : List Byte) :
    unread (queue ++ [⟨data, 0⟩]) = unread queue ++ data := by
  rw [unread, flatMap_append]
  simp only [flatMap_cons, flatMap_nil, append_nil]
  rfl

theorem unread_take (buffer : Buffer) (queue : List Buffer) (n : Nat) :
    (buffer.data.drop buffer.offset).take n ++
        unread (if buffer.data.length - (buffer.offset + n) = 0 then queue
          else { buffer with offset := buffer.offset + n } :: queue) = unread (buffer :: queue) := by
  have hsplit : (buffer.data.drop buffer.offset).take n ++ buffer.data.drop (buffer.offset + n) =
      buffer.data.drop buffer.offset := by
    rw [← drop_drop, take_append_drop]
  rw [unread_cons, ← hsplit, append_assoc, hsplit]
  split_ifs with hempty
  · rw [drop_eq_nil_of_le (Nat.sub_eq_zero_iff_le.mp hempty), nil_append]
  · rw [unread_cons]

structure Write where
  pos : Nat
  len : Nat
  value : Nat

def Write.Disjoint (w w' : Write) : Prop := w.pos + w.len ≤ w'.pos ∨ w'.pos + w'.len ≤ w.pos

def writeAll (buf : Buf) (ws : List Write) : Buf := ws.foldl (fun buf w => writeLE buf w.pos w.len w.value) buf

theorem writeAll_cons (buf : Buf) (w : Write) (ws : List Write) :
    writeAll buf (w :: ws) = writeAll (writeLE buf w.pos w.len w.value) ws := rfl

theorem writeAll_none (buf : Buf) : writeAll buf (none : Option Write).toList = buf := rfl

theorem writeAll_some (buf : Buf) (w : Write) : writeAll buf (some w).toList = writeLE buf w.pos w.len w.value := rfl

theorem writeAll_filterMap_cons {α : Type} (buf : Buf) (f : α → Option Write) (a : α) (l : List α) :
    writeAll buf ((a :: l).filterMap f) = writeAll (writeAll buf (f a).toList) (l.filterMap f) := by
  cases hwrite : f a with
  | none => rw [filterMap_cons_none hwrite, writeAll_none]
  | some w => rw [filterMap_cons_some hwrite, writeAll_cons, writeAll_some]

variable {ws : List Write} {buf : Buf}

theorem readLE_writeAll_of_disjoint {o len : Nat} (hapart : ∀ w ∈ ws, o + len ≤ w.pos ∨ w.pos + w.len ≤ o) :
    readLE (writeAll buf ws) o len = readLE buf o len := by
  induction ws generalizing buf with
  | nil => rfl
  | cons w ws ih =>
    obtain ⟨hw, hws⟩ := forall_mem_cons.mp hapart
    rw [writeAll_cons, ih hws, readLE_writeLE_of_disjoint hw]

theorem readLE_writeAll (hpairwise : ws.Pairwise Write.Disjoint) {w : Write} (hmem : w ∈ ws) :
    readLE (writeAll buf ws) w.pos w.len = w.value % 256 ^ w.len := by
  induction ws generalizing buf with
  | nil => cases hmem
  | cons w' ws ih =>
    obtain ⟨hfirst, hrest⟩ := pairwise_cons.mp hpairwise
    rw [writeAll_cons]
    obtain rfl | hmem := mem_cons.mp hmem
    · rw [readLE_writeAll_of_disjoint hfirst, readLE_writeLE]
    · exact ih hrest hmem

theorem writeAll_of_outside {p : Nat} (hout : ∀ w ∈ ws, p < w.pos ∨ w.pos + w.len ≤ p) : writeAll buf ws p = buf p := by
  induction ws generalizing buf with
  | nil => rfl
  | cons w ws ih =>
    obtain ⟨hw, hws⟩ := forall_mem_cons.mp hout
    rw [writeAll_cons, ih hws, writeLE_of_outside hw]

def imageOf (ws : List Write) : Buf := fun p =>
  BitVec.ofNat 8 (ws.foldl (fun n w => n + w.value * 256 ^ w.pos) 0 / 256 ^ p)

section Loops

variable {m : Type → Type} [Monad m] {α β σ : Type}

theorem foldlM_congr {f g : σ → α → m σ} {l : List α} (hstep : ∀ s, ∀ a ∈ l, f s a = g s a) (s : σ) :
    l.foldlM f s = l.foldlM g s := by
  induction l generalizing s with
  | nil => rfl
  | cons a l ih =>
    rw [foldlM_cons, hstep s a mem_cons_self]
    exact bind_congr (ih fun s a ha => hstep s a (mem_cons_of_mem _ ha))

theorem foldlM_flatMap [LawfulMonad m] (step : σ → β → m σ) (f : α → List β) (l : List α) (s : σ) :
    (l.flatMap f).foldlM step s = l.foldlM (fun s a => (f a).foldlM step s) s := by
  induction l generalizing s with
  | nil => rfl
  | cons a l ih =>
    rw [flatMap_cons, foldlM_append]
    exact bind_congr ih

end Loops

end Kairax.Lib
