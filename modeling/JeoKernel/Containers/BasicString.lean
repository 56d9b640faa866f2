import JeoKernel.Lib.Bytes
import JeoKernel.Lib.Faults

/-!
# `std::string`

A string object has 24 bytes.  In the short form the first 23 of them are the characters and the last
one is the unused capacity, which is also the terminator of a string of 23 characters.  In the long
form the same bytes are a pointer, the size and seven bytes of the capacity, and the last byte is 255.
-/

namespace JeoKernel.Str

open Function Buffer Record

/-! ## The container -/

def isShort (c : Buffer) : Bool := c 23 ≤ 23

def pointer (c : Buffer) : ℕ := Record.leValue (c.read 0 8)

def ptrSize (c : Buffer) : ℕ := Record.leValue (c.read 8 8)

def ptrCapacity (c : Buffer) : ℕ := Record.leValue (c.read 16 7)

def size (c : Buffer) : ℕ := if isShort c then 23 - (c 23).toNat else ptrSize c

def capacity (c : Buffer) : ℕ := if isShort c then 23 else ptrCapacity c

def setPointer (c : Buffer) (addr : ℕ) : Buffer := c.write 0 (Record.leBytes 8 addr)

def setPtrSize (c : Buffer) (n : ℕ) : Buffer := c.write 8 (Record.leBytes 8 n)

def setCapacity (c : Buffer) (cap : ℕ) : Buffer := (c.write 23 [255]).write 16 (Record.leBytes 7 cap)

def setEmpty (c : Buffer) : Buffer := (c.write 0 [0]).write 23 [23]

def setShortSize (c : Buffer) (n : ℕ) : Buffer :=
  if n ≠ 0 then
    if n < 23 then (c.write 23 [UInt8.ofNat (23 - n)]).write n [0]
    else c.write 23 [UInt8.ofNat (23 - n)]
  else setEmpty c

/-- A container as its constructor leaves it; its unused capacity is 22. -/
def initial : Buffer := Buffer.write (fun _ => 0) 23 [22]

/-- `pad_capacity`, with an allocation unit of 32 characters. -/
def padCapacity (suggestion : ℕ) : ℕ :=
  if suggestion % 32 = 0 then suggestion else suggestion + 32 - suggestion % 32

/-! ## Objects and heap buffers -/

structure Alloc where
  bytes : Buffer
  length : ℕ

/-- An answer of the allocator: an address, and the bytes that happen to be there. -/
structure Fresh where
  addr : ℕ
  junk : Buffer

/-- The place that `data()` gives: the object itself or a heap buffer. -/
inductive Ptr
  | object (k : ℕ)
  | heap (addr : ℕ)
  deriving DecidableEq

/-- The string objects of a program, and the heap buffers. -/
structure Mem where
  objects : ℕ → Option Buffer
  heap : ℕ → Option Alloc

def data (k : ℕ) (c : Buffer) : Ptr := if isShort c then .object k else .heap (pointer c)

namespace Mem

def object (m : Mem) (k : ℕ) : Except Fault Buffer :=
  match m.objects k with
  | none => .error .missing
  | some c => .ok c

def setObject (m : Mem) (k : ℕ) (c : Buffer) : Mem :=
  { m with objects := update m.objects k (some c) }

def load (m : Mem) (p : Ptr) (offset n : ℕ) : Except Fault (List UInt8) :=
  match p with
  | .object k => do
    let c ← m.object k
    if offset + n ≤ 24 then return c.read offset n else .error .outside
  | .heap addr =>
    match m.heap addr with
    | none => .error .dangling
    | some a => if offset + n ≤ a.length then return a.bytes.read offset n else .error .outside

def store (m : Mem) (p : Ptr) (offset : ℕ) (bytes : List UInt8) : Except Fault Mem :=
  match p with
  | .object k => do
    let c ← m.object k
    if offset + bytes.length ≤ 24 then return m.setObject k (c.write offset bytes)
    else .error .outside
  | .heap addr =>
    match m.heap addr with
    | none => .error .dangling
    | some a =>
      if offset + bytes.length ≤ a.length then
        return { m with
          heap := update m.heap addr (some ⟨a.bytes.write offset bytes, a.length⟩) }
      else .error .outside

def allocate (m : Mem) (fresh : Fresh) (n : ℕ) : Mem :=
  { m with heap := update m.heap fresh.addr (some ⟨fresh.junk, n⟩) }

def deallocate (m : Mem) (addr n : ℕ) : Except Fault Mem :=
  match m.heap addr with
  | none => .error .dangling
  | some a =>
    if a.length = n then return { m with heap := update m.heap addr none }
    else .error .wrongSize

/-! ## The operations -/

/-- The first half of `reserve`: a new buffer with the characters and a terminator. -/
def copyOut (m : Mem) (k : ℕ) (c : Buffer) (fresh : Fresh) (padded : ℕ) : Except Fault Mem := do
  let m := m.allocate fresh padded
  let xs ← m.load (data k c) 0 (size c)
  let m ← m.store (.heap fresh.addr) 0 xs
  m.store (.heap fresh.addr) (size c) [0]

def reserve (m : Mem) (k newCap : ℕ) (fresh : Fresh) : Except Fault Mem := do
  let c ← m.object k
  if capacity c < newCap then
    let padded := padCapacity (newCap + 1)
    let m ← m.copyOut k c fresh padded
    let c' := setCapacity (setPointer c fresh.addr) (padded - 1)
    if isShort c then return m.setObject k (setPtrSize c' (size c))
    else (m.setObject k c').deallocate (pointer c) (capacity c + 1)
  else return m

def reserveIf (m : Mem) (needed : Bool) (k newCap : ℕ) (fresh : Fresh) : Except Fault Mem :=
  if needed then m.reserve k newCap fresh else return m

/-- The new size, where the terminator is in place in the long form. -/
def sized (m : Mem) (k n : ℕ) : Except Fault Mem := do
  let c ← m.object k
  return m.setObject k (if isShort c then setShortSize c n else setPtrSize c n)

def terminated (m : Mem) (k n : ℕ) : Except Fault Mem := do
  let c ← m.object k
  if isShort c then return m.setObject k (setShortSize c n)
  else
    let m ← m.store (.heap (pointer c)) n [0]
    return m.setObject k (setPtrSize c n)

def put (m : Mem) (k offset : ℕ) (bytes : List UInt8) : Except Fault Mem := do
  let c ← m.object k
  m.store (data k c) offset bytes

def copyFrom (m : Mem) (k from_ : ℕ) (fresh : Fresh) : Except Fault Mem := do
  let c ← m.object k
  let cp ← m.object from_
  if isShort cp && isShort c then
    return m.setObject k ((c.write 0 (cp.read 0 23)).write 23 [cp 23])
  else
    let m ← m.reserve k (size cp) fresh
    let xs ← m.load (data from_ (← m.object from_)) 0 (size cp + 1)
    let m ← m.put k 0 xs
    m.sized k (size cp)

def construct (m : Mem) (k : ℕ) (xs : List UInt8) (fresh : Fresh) : Except Fault Mem :=
  let m := m.setObject k (setEmpty initial)
  if xs.length ≤ 23 then do
    let m ← m.put k 0 xs
    m.terminated k xs.length
  else do
    let m ← m.reserve k xs.length fresh
    let m ← m.put k 0 xs
    m.terminated k xs.length

/-- Assignment from a C string, which calls `reserve` also if the characters just fit. -/
def assignC (m : Mem) (k : ℕ) (xs : List UInt8) (fresh : Fresh) : Except Fault Mem := do
  let c ← m.object k
  let m ← m.reserveIf (capacity c ≤ xs.length) k xs.length fresh
  let m ← m.put k 0 (xs ++ [0])
  m.sized k xs.length

def clear (m : Mem) (k : ℕ) : Except Fault Mem := do
  let c ← m.object k
  if isShort c then return m.setObject k (setEmpty c)
  else (m.setObject k (setPtrSize c 0)).store (.heap (pointer c)) 0 [0]

def appendFill (m : Mem) (k count : ℕ) (ch : UInt8) (fresh : Fresh) : Except Fault Mem := do
  let c ← m.object k
  let m ← m.reserveIf (capacity c < size c + count) k (size c + count) fresh
  let m ← m.put k (size c) (List.replicate count ch)
  m.terminated k (size c + count)

/-- `append(str, count)`, for characters outside the strings. -/
def appendBytes (m : Mem) (k : ℕ) (xs : List UInt8) (fresh : Fresh) : Except Fault Mem := do
  let c ← m.object k
  let m ← m.reserveIf (capacity c < size c + xs.length) k (size c + xs.length) fresh
  let m ← m.put k (size c) xs
  m.terminated k (size c + xs.length)

/-- `append(str)` for a string; its data and size are taken before the call. -/
def appendString (m : Mem) (k from_ : ℕ) (fresh : Fresh) : Except Fault Mem := do
  let cp ← m.object from_
  let c ← m.object k
  let m ← m.reserveIf (capacity c < size c + size cp) k (size c + size cp) fresh
  let xs ← m.load (data from_ cp) 0 (size cp)
  let m ← m.put k (size c) xs
  m.terminated k (size c + size cp)

/-- The end of `resize`: the string is long and has room. -/
def fill (m : Mem) (k s count : ℕ) (ch : UInt8) : Except Fault Mem := do
  let c ← m.object k
  let m ← m.store (.heap (pointer c)) s (List.replicate (count - s) ch)
  let m ← m.store (.heap (pointer c)) count [0]
  return m.setObject k (setPtrSize c count)

def resize (m : Mem) (k count : ℕ) (ch : UInt8) (fresh : Fresh) : Except Fault Mem := do
  let c ← m.object k
  if isShort c then
    if size c = count then return m
    else if count < size c then return m.setObject k (setShortSize c count)
    else if count ≤ 23 then
      return m.setObject k
        (setShortSize (c.write (size c) (List.replicate (count - size c) ch)) count)
    else (← m.reserve k count fresh).fill k (size c) count ch
  else if count = size c then return m
  else if count < size c then
    let m ← m.store (.heap (pointer c)) count [0]
    return m.setObject k (setPtrSize c count)
  else (← m.reserveIf (capacity c < count) k count fresh).fill k (size c) count ch

def release (m : Mem) (k : ℕ) : Except Fault Mem := do
  let c ← m.object k
  if isShort c then return m else m.deallocate (pointer c) (ptrCapacity c + 1)

def moveConstruct (m : Mem) (k from_ : ℕ) : Except Fault Mem := do
  let mv ← m.object from_
  let m := m.setObject k mv
  return if isShort mv then m else m.setObject from_ (setEmpty initial)

def moveAssign (m : Mem) (k from_ : ℕ) : Except Fault Mem := do
  let m ← m.release k
  let mv ← m.object from_
  let m := m.setObject k mv
  return if isShort mv then m else m.setObject from_ (setEmpty mv)

def destroy (m : Mem) (k : ℕ) : Except Fault Mem := do
  let m ← m.release k
  return { m with objects := update m.objects k none }

end Mem

inductive Op
  | create (k : ℕ)
  | construct (k : ℕ) (xs : List UInt8) (fresh : Fresh)
  | copy (k from_ : ℕ) (fresh : Fresh)
  | move (k from_ : ℕ)
  | assign (k from_ : ℕ) (fresh : Fresh)
  | assignMove (k from_ : ℕ)
  | assignC (k : ℕ) (xs : List UInt8) (fresh : Fresh)
  | appendFill (k count : ℕ) (ch : UInt8) (fresh : Fresh)
  | appendBytes (k : ℕ) (xs : List UInt8) (fresh : Fresh)
  | appendString (k from_ : ℕ) (fresh : Fresh)
  | reserve (k n : ℕ) (fresh : Fresh)
  | resize (k n : ℕ) (ch : UInt8) (fresh : Fresh)
  | clear (k : ℕ)
  | destroy (k : ℕ)

namespace Mem

def exec (m : Mem) : Op → Except Fault Mem
  | .create k => return m.setObject k (setEmpty initial)
  | .construct k xs fresh => m.construct k xs fresh
  | .copy k from_ fresh => (m.setObject k initial).copyFrom k from_ fresh
  | .move k from_ => m.moveConstruct k from_
  | .assign k from_ fresh => m.copyFrom k from_ fresh
  | .assignMove k from_ => if k = from_ then return m else m.moveAssign k from_
  | .assignC k xs fresh => m.assignC k xs fresh
  | .appendFill k count ch fresh => m.appendFill k count ch fresh
  | .appendBytes k xs fresh => m.appendBytes k xs fresh
  | .appendString k from_ fresh => m.appendString k from_ fresh
  | .reserve k n fresh => m.reserve k n fresh
  | .resize k n ch fresh => m.resize k n ch fresh
  | .clear k => m.clear k
  | .destroy k => m.destroy k

end Mem

/-! ## The two forms -/

structure ShortForm (c : Buffer) (xs : List UInt8) : Prop where
  fits : xs.length ≤ 23
  tag : c 23 = UInt8.ofNat (23 - xs.length)
  text : c.read 0 xs.length = xs
  terminated : c xs.length = 0

/-- The container is a long string with the characters `xs` in the buffer `a`. -/
structure LongForm (heap : ℕ → Option Alloc) (c : Buffer) (xs : List UInt8) (a : Alloc) : Prop where
  tag : c 23 = 255
  buffer : heap (pointer c) = some a
  capacity : ptrCapacity c + 1 = a.length
  size : ptrSize c = xs.length
  fits : xs.length < a.length
  text : a.bytes.read 0 xs.length = xs
  terminated : a.bytes xs.length = 0

def Form (heap : ℕ → Option Alloc) (c : Buffer) (xs : List UInt8) : Prop :=
  ShortForm c xs ∨ ∃ a, LongForm heap c xs a

def bufferOf (c : Buffer) : Option ℕ := if isShort c then none else some (pointer c)

variable {n : ℕ}

section Forms

variable {heap : ℕ → Option Alloc} {c : Buffer} {xs : List UInt8} {a : Alloc}

section

variable (h : ShortForm c xs)

include h

theorem tag_toNat : (c 23).toNat = 23 - xs.length := by
  rw [h.tag, UInt8.toNat_ofNat']
  exact Nat.mod_eq_of_lt (by omega)

theorem ShortForm.isShort : isShort c = true := by
  have tag := tag_toNat h
  refine decide_eq_true (UInt8.le_iff_toNat_le.mpr ?_)
  rw [tag]
  exact Nat.sub_le _ _

theorem ShortForm.size_eq : size c = xs.length := by
  have fits := h.fits
  rw [size, if_pos h.isShort, tag_toNat h]
  omega

theorem ShortForm.capacity_eq : capacity c = 23 := by
  rw [capacity, if_pos h.isShort]

theorem ShortForm.bufferOf_eq : bufferOf c = none := by
  rw [bufferOf, if_pos h.isShort]

end

theorem not_isShort_of_tag (tag : c 23 = 255) : ¬isShort c = true := by
  rw [isShort, tag]
  decide

section

variable (h : LongForm heap c xs a)

include h

theorem LongForm.not_isShort : ¬isShort c = true := not_isShort_of_tag h.tag

theorem LongForm.size_eq : Str.size c = xs.length := by
  rw [Str.size, if_neg h.not_isShort, h.size]

theorem LongForm.capacity_eq : Str.capacity c + 1 = a.length := by
  rw [Str.capacity, if_neg h.not_isShort, h.capacity]

theorem LongForm.bufferOf_eq : bufferOf c = some (pointer c) := by
  rw [bufferOf, if_neg h.not_isShort]

end

theorem Form.size_eq (h : Form heap c xs) : size c = xs.length := by
  obtain short | ⟨a, long⟩ := h
  · exact short.size_eq
  · exact long.size_eq

/-! ## Changing the container -/

section

variable (c : Buffer)

theorem pointer_setPtrSize (n : ℕ) : pointer (setPtrSize c n) = pointer c := by
  rw [pointer, setPtrSize, read_write_of_disjoint c (.inl (by omega)), pointer]

theorem ptrCapacity_setPtrSize (n : ℕ) : ptrCapacity (setPtrSize c n) = ptrCapacity c := by
  rw [ptrCapacity, setPtrSize, read_write_of_disjoint c (.inr (by simp)), ptrCapacity]

theorem ptrSize_setPtrSize (fits : n < 256 ^ 8) : ptrSize (setPtrSize c n) = n := by
  have read := read_write_self c 8 (leBytes 8 n)
  rw [length_leBytes] at read
  rw [ptrSize, setPtrSize, read, leValue_leBytes fits]

theorem tag_setPtrSize (n : ℕ) : setPtrSize c n 23 = c 23 := by
  rw [setPtrSize, write, length_leBytes, if_neg (by omega)]

theorem pointer_setCapacity {addr : ℕ} (cap : ℕ) (fits : addr < 256 ^ 8) :
    pointer (setCapacity (setPointer c addr) cap) = addr := by
  have read := read_write_self c 0 (leBytes 8 addr)
  rw [length_leBytes] at read
  rw [pointer, setCapacity, read_write_of_disjoint _ (.inl (by omega)),
    read_write_of_disjoint _ (.inl (by omega)), setPointer, read, leValue_leBytes fits]

theorem ptrCapacity_setCapacity {cap : ℕ} (fits : cap < 256 ^ 7) :
    ptrCapacity (setCapacity c cap) = cap := by
  have read := read_write_self (c.write 23 [255]) 16 (leBytes 7 cap)
  rw [length_leBytes] at read
  rw [ptrCapacity, setCapacity, read, leValue_leBytes fits]

theorem ptrSize_setCapacity (addr cap : ℕ) :
    ptrSize (setCapacity (setPointer c addr) cap) = ptrSize c := by
  rw [ptrSize, setCapacity, read_write_of_disjoint _ (.inl (by omega)),
    read_write_of_disjoint _ (.inl (by omega)), setPointer,
    read_write_of_disjoint _ (.inr (by simp)), ptrSize]

theorem tag_setCapacity (cap : ℕ) : setCapacity c cap 23 = 255 := by
  rfl

theorem shortForm_setShortSize (fits : n ≤ 23) :
    ShortForm (setShortSize c n) (c.read 0 n) := by
  have length := length_read c 0 n
  unfold setShortSize
  split_ifs with pos less
  · refine ⟨by rwa [length], ?_, ?_, ?_⟩
    · rw [length, write, if_neg (by simp; omega)]
      rfl
    · rw [length, read_write_of_disjoint _ (.inl (by omega)),
        read_write_of_disjoint _ (.inl (by omega))]
    · rw [length, write, if_pos (by simp)]
      simp
  · obtain rfl : n = 23 := by omega
    refine ⟨by rw [length], ?_, ?_, ?_⟩
    · rfl
    · rw [length, read_write_of_disjoint _ (.inl (by omega))]
    · rfl
  · obtain rfl : n = 0 := by omega
    exact ⟨by rwa [length], rfl, rfl, rfl⟩

theorem shortForm_setEmpty : ShortForm (setEmpty c) [] :=
  ⟨by decide, rfl, rfl, rfl⟩

end

theorem longForm_setPtrSize (heap : ℕ → Option Alloc) (tag : c 23 = 255)
    (buffer : heap (pointer c) = some a) (capacity : ptrCapacity c + 1 = a.length)
    (small : n < 256 ^ 8) (fits : n < a.length) (terminated : a.bytes n = 0) :
    LongForm heap (setPtrSize c n) (a.bytes.read 0 n) a := by
  have length := length_read a.bytes 0 n
  refine ⟨by rw [tag_setPtrSize, tag], by rw [pointer_setPtrSize, buffer],
    by rw [ptrCapacity_setPtrSize, capacity], ?_, ?_, ?_, ?_⟩
  · rw [length, ptrSize_setPtrSize c small]
  · rwa [length]
  · rw [length]
  · rwa [length]

end Forms

end JeoKernel.Str
