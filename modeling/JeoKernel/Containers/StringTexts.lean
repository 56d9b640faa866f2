import JeoKernel.Containers.BasicString
import JeoKernel.Lib.Machine

/-!
# The texts of strings

`Represents m texts` says that the string objects have these texts and that every heap buffer belongs
to exactly one of them.  Every operation keeps it, with the text that the operation is meant to make;
the exception is a string that is appended to itself and has to grow.
-/

namespace JeoKernel.Str

open List Option Function Buffer Mem Fault

/-! ## All strings -/

abbrev Texts := ℕ → Option (List UInt8)

/-- The objects are strings with these texts; every heap buffer belongs to exactly one of them. -/
structure Represents (m : Mem) (texts : Texts) : Prop where
  same : ∀ k, (m.objects k).isSome = (texts k).isSome
  form : ∀ k c xs, m.objects k = some c → texts k = some xs → Form m.heap c xs
  unique : ∀ k k' c c' addr, m.objects k = some c → m.objects k' = some c' →
    bufferOf c = some addr → bufferOf c' = some addr → k = k'
  owned : ∀ addr, (m.heap addr).isSome = true → ∃ k c, m.objects k = some c ∧ bufferOf c = some addr

/-- What becomes of the heap when a container with the buffer `old` is replaced by one with the buffer
`new`. -/
structure Exchange (heap heap' : ℕ → Option Alloc) (old new : Option ℕ) : Prop where
  others : ∀ addr, old ≠ some addr → new ≠ some addr → heap' addr = heap addr
  fresh : ∀ addr, new = some addr → old ≠ some addr → heap addr = none
  gone : ∀ addr, old = some addr → new ≠ some addr → heap' addr = none

theorem Exchange.refl (heap : ℕ → Option Alloc) (o : Option ℕ) : Exchange heap heap o o :=
  ⟨fun _ _ _ => rfl, fun _ here not => absurd here not, fun _ here not => absurd here not⟩

theorem Exchange.overwrite (heap : ℕ → Option Alloc) (addr : ℕ) (a : Alloc) :
    Exchange heap (update heap addr (some a)) (some addr) (some addr) :=
  ⟨fun x other _ => update_of_ne (fun same => other (by rw [same])) _ _,
    fun _ here not => absurd here not, fun _ here not => absurd here not⟩

variable {heap heap' : ℕ → Option Alloc} {addr : ℕ} {old new : Option ℕ}

theorem Exchange.symm (h : Exchange heap heap' old new) : Exchange heap' heap new old :=
  ⟨fun addr notNew notOld => (h.others addr notOld notNew).symm, h.gone, h.fresh⟩

theorem Exchange.give (heap : ℕ → Option Alloc) (addr : ℕ) :
    Exchange heap (update heap addr none) (some addr) none := by
  refine ⟨fun x other _ => update_of_ne (fun same => other (by rw [same])) _ _, ?_, ?_⟩
  · rintro x none
    cases none
  · rintro x same -
    cases same
    exact update_self ..

theorem Exchange.take (unused : heap addr = none) (a : Alloc) :
    Exchange heap (update heap addr (some a)) none (some addr) := by
  have given := Exchange.give (update heap addr (some a)) addr
  rw [update_idem, ← unused, update_eq_self] at given
  exact given.symm

theorem Exchange.swap {old : ℕ} (unused : heap addr = none) (a : Alloc) :
    Exchange heap (update (update heap addr (some a)) old none) (some old)
      (some addr) := by
  refine ⟨fun x notOld notNew => ?_, ?_, ?_⟩
  · rw [update_of_ne (fun same => notOld (by rw [same])),
      update_of_ne (fun same => notNew (by rw [same]))]
  · rintro x same -
    cases same
    exact unused
  · rintro x same -
    cases same
    exact update_self ..

theorem Form.of_heap {c : Buffer} {xs : List UInt8} (h : Form heap c xs)
    (same : ∀ addr, bufferOf c = some addr → heap' addr = heap addr) :
    Form heap' c xs := by
  obtain short | ⟨a, long⟩ := h
  · exact .inl short
  · exact .inr ⟨a, { long with buffer := (same _ long.bufferOf_eq).trans long.buffer }⟩

theorem Form.buffer_isSome {c : Buffer} {xs : List UInt8} (h : Form heap c xs)
    (here : bufferOf c = some addr) : (heap addr).isSome = true := by
  obtain short | ⟨a, long⟩ := h
  · rw [short.bufferOf_eq] at here
    cases here
  · rw [long.bufferOf_eq] at here
    cases here
    rw [long.buffer]
    rfl

namespace Represents

variable {m : Mem} {texts : Texts} {k : ℕ} {c : Buffer} {xs : List UInt8}

theorem exists_object (h : Represents m texts) (text : texts k = some xs) :
    ∃ c, m.objects k = some c ∧ Form m.heap c xs := by
  have same := h.same k
  rw [text] at same
  obtain ⟨c, here⟩ := isSome_iff_exists.mp same
  exact ⟨c, here, h.form k c xs here text⟩

theorem exists_text (h : Represents m texts) (here : m.objects k = some c) :
    ∃ xs, texts k = some xs ∧ Form m.heap c xs := by
  have same := h.same k
  rw [here] at same
  obtain ⟨xs, text⟩ := isSome_iff_exists.mp same.symm
  exact ⟨xs, text, h.form k c xs here text⟩

variable {old : Option Buffer}

/-- One object is replaced, constructed or destroyed, and with it its buffer. -/
theorem replace (h : Represents m texts) (at_k : m.objects k = old)
    (new : Option (Buffer × List UInt8)) (form : ∀ x, new = some x → Form heap' x.1 x.2)
    (exchange : Exchange m.heap heap' (old.bind bufferOf) (new.bind fun x => bufferOf x.1)) :
    Represents ⟨update m.objects k (new.map Prod.fst), heap'⟩
      (update texts k (new.map Prod.snd)) := by
  -- the buffers of the other strings are left alone
  have apart : ∀ k' c' addr, k' ≠ k → m.objects k' = some c' → bufferOf c' = some addr →
      old.bind bufferOf ≠ some addr ∧ (new.bind fun x => bufferOf x.1) ≠ some addr := by
    intro k' c' addr ne here buffer
    have notOld : old.bind bufferOf ≠ some addr := fun same => by
      obtain ⟨c, rfl, buffer'⟩ := bind_eq_some_iff.mp same
      exact ne (h.unique k' k c' c addr here at_k buffer buffer')
    refine ⟨notOld, fun same => ?_⟩
    obtain ⟨xs, -, form'⟩ := h.exists_text here
    have some := form'.buffer_isSome buffer
    rw [exchange.fresh addr same notOld] at some
    cases some
  have holder : ∀ k' c addr, update m.objects k (new.map Prod.fst) k' = some c →
      bufferOf c = some addr → k' = k ∧ (new.bind fun x => bufferOf x.1) = some addr ∨
        m.objects k' = some c ∧ (new.bind fun x => bufferOf x.1) ≠ some addr := by
    intro k' c addr here buffer
    by_cases same : k' = k
    · rw [same, update_self] at here
      obtain ⟨x, rfl, rfl⟩ := map_eq_some_iff.mp here
      exact .inl ⟨same, buffer⟩
    · rw [update_of_ne same] at here
      exact .inr ⟨here, (apart k' c addr same here buffer).2⟩
  refine ⟨fun k' => ?_, fun k' c xs here text => ?_, fun k₁ k₂ c₁ c₂ addr at₁ at₂ buf₁ buf₂ => ?_,
    fun addr live => ?_⟩
  · dsimp only
    by_cases same : k' = k
    · subst same
      rw [update_self, update_self, isSome_map, isSome_map]
    · rw [update_of_ne same, update_of_ne same, h.same]
  · dsimp only at here ⊢
    by_cases same : k' = k
    · subst same
      rw [update_self] at here text
      obtain ⟨x, rfl, rfl⟩ := map_eq_some_iff.mp here
      cases text
      exact form x rfl
    · rw [update_of_ne same] at here text
      refine (h.form k' c xs here text).of_heap fun addr buffer => ?_
      obtain ⟨notOld, notNew⟩ := apart k' c addr same here buffer
      exact exchange.others addr notOld notNew
  · rcases holder k₁ c₁ addr at₁ buf₁ with ⟨rfl, here⟩ | ⟨at₁, other⟩
    · rcases holder k₂ c₂ addr at₂ buf₂ with ⟨rfl, -⟩ | ⟨-, other⟩
      · rfl
      · exact absurd here other
    · rcases holder k₂ c₂ addr at₂ buf₂ with ⟨rfl, here⟩ | ⟨at₂, -⟩
      · exact absurd here other
      · exact h.unique k₁ k₂ c₁ c₂ addr at₁ at₂ buf₁ buf₂
  · dsimp only at live ⊢
    by_cases isNew : (new.bind fun x => bufferOf x.1) = some addr
    · obtain ⟨x, rfl, buffer⟩ := bind_eq_some_iff.mp isNew
      exact ⟨k, x.1, by rw [update_self]; rfl, buffer⟩
    · by_cases isOld : old.bind bufferOf = some addr
      · rw [exchange.gone addr isOld isNew] at live
        cases live
      · rw [exchange.others addr isOld isNew] at live
        obtain ⟨k', c, here, buffer⟩ := h.owned addr live
        refine ⟨k', c, ?_, buffer⟩
        rwa [update_of_ne]
        rintro rfl
        rw [here] at at_k
        exact isOld (by rw [← at_k]; exact buffer)

variable {c' : Buffer} {ys : List UInt8}

theorem put (h : Represents m texts) (at_k : m.objects k = old)
    (form : Form heap' c' ys) (exchange : Exchange m.heap heap' (old.bind bufferOf) (bufferOf c')) :
    Represents ⟨update m.objects k (some c'), heap'⟩ (update texts k (some ys)) := by
  refine h.replace at_k (some (c', ys)) (fun x same => ?_) exchange
  cases same
  exact form

theorem update_same (text : texts k = some ys) :
    update texts k (some ys) = texts := by
  rw [← text, update_eq_self]

theorem congr_texts (h : Represents m (update texts k (some ys)))
    (text : texts k = some ys) : Represents m texts := by
  rwa [update_same text] at h

variable {a : Alloc} {n : ℕ}

/-- What `reserve` leaves: the same texts, and room in the string. -/
def Reserved (m : Mem) (texts : Texts) (k n : ℕ) (m' : Mem) : Prop :=
  Represents m' texts ∧ (∀ j, j ≠ k → m'.objects j = m.objects j) ∧
    ∃ c', m'.objects k = some c' ∧ n ≤ capacity c' ∧ (isShort c' = true → m' = m)

theorem regrow (h : Represents m texts) (at_k : m.objects k = some c) (text : texts k = some xs)
    (new : LongForm heap' c' xs a) (room : n < a.length)
    (exchange : Exchange m.heap heap' (bufferOf c) (some (pointer c'))) :
    Reserved m texts k n ⟨update m.objects k (some c'), heap'⟩ := by
  have capacity := new.capacity_eq
  refine ⟨(h.put at_k (.inr ⟨a, new⟩) ?_).congr_texts text, fun j other => update_of_ne other _ _, c',
    update_self .., by omega, fun short => absurd short new.not_isShort⟩
  rw [bind_some, new.bufferOf_eq]
  exact exchange

theorem put_short (h : Represents m texts) (at_k : m.objects k = some c) (short : bufferOf c = none)
    (form : ShortForm c' ys) :
    Represents (m.setObject k c') (update texts k (some ys)) := by
  refine h.put at_k (.inl form) ?_
  rw [bind_some, short, form.bufferOf_eq]
  exact .refl _ _

theorem put_long (h : Represents m texts) (at_k : m.objects k = some c) {b : Alloc}
    (long : LongForm m.heap c xs a) (length : b.length = a.length) (fits : n < a.length)
    (terminated : b.bytes n = 0) :
    Represents ⟨update m.objects k (some (setPtrSize c n)), update m.heap (pointer c) (some b)⟩
      (update texts k (some (b.bytes.read 0 n))) := by
  have small : n < 256 ^ 8 := by
    have bound := Record.leValue_lt (c.read 16 7)
    rw [length_read, ← ptrCapacity] at bound
    have := long.capacity
    omega
  have form := longForm_setPtrSize (update m.heap (pointer c) (some b)) long.tag
    (update_self ..) (long.capacity.trans length.symm) small (by omega) terminated
  refine h.put at_k (.inr ⟨b, form⟩) ?_
  rw [bind_some, long.bufferOf_eq, form.bufferOf_eq, pointer_setPtrSize]
  exact .overwrite ..

end Represents

/-! ## Growing -/

theorem padCapacity_ge (n : ℕ) : n ≤ padCapacity n ∧ padCapacity n ≤ n + 31 := by
  unfold padCapacity
  split_ifs <;> omega

/-- An address that the allocator may answer with, for lengths that fit in the seven bytes. -/
structure Fresh.Usable (fresh : Fresh) (m : Mem) (n : ℕ) : Prop where
  unused : m.heap fresh.addr = none
  addr_lt : fresh.addr < 2 ^ 64
  small : n < 2 ^ 55

variable {fresh : Fresh} {j : ℕ} {cp mv : Buffer}

section Ops

variable {m : Mem} {texts : Texts} {k : ℕ} {c : Buffer} {xs : List UInt8}

theorem object_eq (at_k : m.objects k = some c) : m.object k = .ok c := by rw [Mem.object, at_k]

theorem store_heap (here : m.heap addr = some a) (offset : ℕ) (bytes : List UInt8)
    (fits : offset + bytes.length ≤ a.length) :
    m.store (.heap addr) offset bytes = .ok { m with
      heap := update m.heap addr (some ⟨a.bytes.write offset bytes, a.length⟩) } := by
  simp only [store, here, if_pos fits]
  rfl

theorem store_heap_again (m : Mem) (addr : ℕ) (a : Alloc) (offset : ℕ) (bytes : List UInt8)
    (fits : offset + bytes.length ≤ a.length) :
    Mem.store { m with heap := update m.heap addr (some a) } (.heap addr) offset bytes =
      .ok { m with
        heap := update m.heap addr (some ⟨a.bytes.write offset bytes, a.length⟩) } := by
  have here : update m.heap addr (some a) addr = some a := update_self ..
  simp only [store, here, if_pos fits, update_idem]
  rfl

theorem store_object {offset : ℕ} {bytes : List UInt8} (at_k : m.objects k = some c)
    (fits : offset + bytes.length ≤ 24) :
    m.store (.object k) offset bytes = .ok (m.setObject k (c.write offset bytes)) := by
  simp only [store, object_eq at_k, bind, Except.bind, if_pos fits]
  rfl

theorem read_prefix {b : Buffer} (text : b.read 0 xs.length = xs) {s : ℕ} (le : s ≤ xs.length) :
    b.read 0 s = xs.take s := by
  obtain ⟨d, rest⟩ := Nat.exists_eq_add_of_le le
  rw [rest, read_add] at text
  rw [← text, take_left' (length_read ..)]

theorem read_terminated {b : Buffer} (text : b.read 0 xs.length = xs) (zero : b xs.length = 0)
    (le : n ≤ xs.length + 1) : b.read 0 n = (xs ++ [0]).take n := by
  refine read_prefix ?_ (by simpa using le)
  rw [length_append, length_singleton, read_add, text]
  simp [Buffer.read, zero]

theorem load_data (at_k : m.objects k = some c) (form : Form m.heap c xs) (le : n ≤ xs.length + 1) :
    m.load (data k c) 0 n = .ok ((xs ++ [0]).take n) := by
  obtain short | ⟨a, long⟩ := form
  · have fits := short.fits
    rw [← read_terminated short.text short.terminated le, data, if_pos short.isShort]
    simp only [load, object_eq at_k, bind, Except.bind]
    rw [if_pos (by omega)]
    rfl
  · have fits := long.fits
    rw [← read_terminated long.text long.terminated le, data, if_neg long.not_isShort]
    simp only [load, long.buffer]
    rw [if_pos (by omega)]
    rfl

theorem load_size (at_k : m.objects k = some c) (form : Form m.heap c xs) :
    m.load (data k c) 0 (size c) = .ok xs := by
  rw [form.size_eq, load_data at_k form (Nat.le_succ _), take_left' rfl]

def grown (fresh : Fresh) (xs : List UInt8) : Buffer := (fresh.junk.write 0 xs).write xs.length [0]

theorem read_grown (fresh : Fresh) (xs : List UInt8) : (grown fresh xs).read 0 xs.length = xs := by
  rw [grown, read_write_of_disjoint _ (.inl (by omega)), read_write_self]

theorem grown_terminated (fresh : Fresh) (xs : List UInt8) : grown fresh xs xs.length = 0 := by
  rw [grown, write, if_pos (by simp)]
  simp

theorem Form.size_le (form : Form m.heap c xs) : xs.length ≤ capacity c := by
  obtain short | ⟨a, long⟩ := form
  · rw [short.capacity_eq]
    exact short.fits
  · have := long.capacity_eq
    have := long.fits
    omega

theorem buffer_ne_fresh (form : Form m.heap c xs) (unused : m.heap fresh.addr = none)
    (buffer : bufferOf c = some addr) : addr ≠ fresh.addr := by
  rintro rfl
  have some := form.buffer_isSome buffer
  rw [unused] at some
  cases some

theorem copyOut_eq (at_k : m.objects k = some c) (form : Form m.heap c xs)
    (unused : m.heap fresh.addr = none) (padded : ℕ) (room : xs.length < padded) :
    m.copyOut k c fresh padded = .ok { m with
      heap := update m.heap fresh.addr (some ⟨grown fresh xs, padded⟩) } := by
  have form' : Form (m.allocate fresh padded).heap c xs := form.of_heap fun addr buffer =>
    update_of_ne (buffer_ne_fresh form unused buffer) _ _
  have first := store_heap_again m fresh.addr ⟨fresh.junk, padded⟩ 0 xs
    (by dsimp only; omega)
  have last := store_heap_again m fresh.addr ⟨fresh.junk.write 0 xs, padded⟩ xs.length [0]
    (by dsimp only [length_singleton]; omega)
  unfold copyOut
  simp only [load_size (m := m.allocate fresh padded) at_k form', bind, Except.bind]
  rw [form.size_eq, allocate]
  simp only [first, last]
  rfl

theorem longForm_grown (heap : ℕ → Option Alloc) (fresh : Fresh) (padded : ℕ) (tag : c 23 = 255)
    (addr : pointer c = fresh.addr) (cap : ptrCapacity c + 1 = padded) (size : ptrSize c = xs.length)
    (room : xs.length < padded) (here : heap fresh.addr = some ⟨grown fresh xs, padded⟩) :
    LongForm heap c xs ⟨grown fresh xs, padded⟩ :=
  ⟨tag, by rw [addr, here], cap, size, room, read_grown fresh xs, grown_terminated fresh xs⟩

theorem reserve_ends (h : Represents m texts) (text : texts k = some xs) {newCap : ℕ}
    (usable : fresh.Usable m newCap) :
    Ends (Represents.Reserved m texts k newCap) (m.reserve k newCap fresh) := by
  obtain ⟨c, at_k, form⟩ := h.exists_object text
  have size_le := form.size_le
  obtain ⟨large, bound⟩ := padCapacity_ge (newCap + 1)
  have small := usable.small
  unfold reserve
  simp only [object_eq at_k, bind, Except.bind]
  by_cases more : capacity c < newCap
  · rw [if_pos more]
    have copied := copyOut_eq at_k form usable.unused (padCapacity (newCap + 1)) (by omega)
    generalize padCapacity (newCap + 1) = padded at *
    simp only [copied]
    obtain short | ⟨a, long⟩ := id form
    · rw [if_pos short.isShort, short.size_eq]
      have new := longForm_grown (c := setPtrSize (setCapacity (setPointer c fresh.addr) (padded - 1))
        xs.length) (update m.heap fresh.addr (some ⟨grown fresh xs, padded⟩)) fresh padded
        (by rw [tag_setPtrSize, tag_setCapacity])
        (by rw [pointer_setPtrSize, pointer_setCapacity _ _ usable.addr_lt])
        (by rw [ptrCapacity_setPtrSize, ptrCapacity_setCapacity _ (by omega)]; omega)
        (ptrSize_setPtrSize _ (by omega)) (by omega) (update_self ..)
      refine h.regrow at_k text new (by dsimp only; omega) ?_
      rw [short.bufferOf_eq, pointer_setPtrSize, pointer_setCapacity _ _ usable.addr_lt]
      exact .take usable.unused _
    · rw [if_neg long.not_isShort]
      have ne := buffer_ne_fresh form usable.unused long.bufferOf_eq
      have here : update m.heap fresh.addr (some ⟨grown fresh xs, padded⟩) (pointer c) =
          some a := by rw [update_of_ne ne, long.buffer]
      have new := longForm_grown (c := setCapacity (setPointer c fresh.addr) (padded - 1))
        (update (update m.heap fresh.addr (some ⟨grown fresh xs, padded⟩))
          (pointer c) none) fresh padded
        (tag_setCapacity _ _) (pointer_setCapacity c _ usable.addr_lt)
        (by rw [ptrCapacity_setCapacity _ (by omega)]; omega)
        (by rw [ptrSize_setCapacity, long.size]) (by omega)
        (by rw [update_of_ne ne.symm, update_self])
      unfold deallocate
      simp only [setObject, here]
      rw [if_pos long.capacity_eq.symm]
      refine h.regrow at_k text new (by dsimp only; omega) ?_
      rw [long.bufferOf_eq, pointer_setCapacity _ _ usable.addr_lt]
      exact .swap usable.unused _
  · rw [if_neg more]
    exact ⟨h, fun _ _ => rfl, c, at_k, not_lt.mp more, fun _ => rfl⟩

/-! ## Storing characters -/

theorem read_write_behind (b : Buffer) (s : ℕ) (bytes : List UInt8) :
    (b.write s bytes).read 0 (s + bytes.length) = b.read 0 s ++ bytes := by
  rw [read_add, read_write_of_disjoint _ (.inl (by omega)), zero_add, read_write_self]

theorem write_last (b : Buffer) (n : ℕ) (x : UInt8) : b.write n [x] n = x := by
  rw [write, if_pos (by simp)]
  simp

theorem setObject_setObject (m : Mem) (k : ℕ) (c c' : Buffer) :
    (m.setObject k c).setObject k c' = m.setObject k c' := by
  simp only [setObject, update_idem]

section

variable (h : Represents m texts) (at_k : m.objects k = some c) (text : texts k = some xs)

include h at_k text

theorem put_terminated_ends {s : ℕ} (bytes : List UInt8) (le : s ≤ xs.length)
    (room : s + bytes.length ≤ capacity c) :
    Ends (Represents · (update texts k (some (xs.take s ++ bytes))))
      (do (← m.put k s bytes).terminated k (s + bytes.length)) := by
  obtain short | ⟨a, long⟩ := h.form k c xs at_k text
  · rw [short.capacity_eq] at room
    have isShort' : isShort (c.write s bytes) = true := by
      rw [isShort, write, if_neg (by omega)]
      exact short.isShort
    have at_k' : (m.setObject k (c.write s bytes)).objects k = some (c.write s bytes) :=
      update_self ..
    have result := h.put_short at_k short.bufferOf_eq (shortForm_setShortSize (c.write s bytes) room)
    rw [read_write_behind, read_prefix short.text le] at result
    unfold put
    simp only [object_eq at_k, bind, Except.bind, data, if_pos short.isShort,
      store_object at_k (show s + bytes.length ≤ 24 by omega)]
    unfold terminated
    simp only [object_eq at_k', bind, Except.bind, if_pos isShort', setObject_setObject]
    exact result
  · have capacity := long.capacity_eq
    have result := h.put_long at_k long
      (b := ⟨(a.bytes.write s bytes).write (s + bytes.length) [0], a.length⟩) rfl
      (n := s + bytes.length) (by omega) (write_last ..)
    rw [read_write_of_disjoint _ (.inl (by omega)), read_write_behind,
      read_prefix long.text le] at result
    unfold put
    simp only [object_eq at_k, bind, Except.bind, data, if_neg long.not_isShort,
      store_heap long.buffer s bytes (by omega)]
    have last := store_heap_again m (pointer c) ⟨a.bytes.write s bytes, a.length⟩
      (s + bytes.length) [0] (by dsimp only [length_singleton]; omega)
    unfold terminated object
    simp only [at_k, bind, Except.bind, if_neg long.not_isShort, last, setObject]
    exact result

theorem put_sized_ends (room : ys.length ≤ capacity c) :
    Ends (Represents · (update texts k (some ys)))
      (do (← m.put k 0 (ys ++ [0])).sized k ys.length) := by
  have length : (ys ++ [(0 : UInt8)]).length = ys.length + 1 := by simp
  have read : ∀ b : Buffer, (b.write 0 (ys ++ [0])).read 0 ys.length = ys := fun b => by
    have whole := read_prefix (b := b.write 0 (ys ++ [0])) (read_write_self ..)
      (show ys.length ≤ (ys ++ [0]).length by omega)
    rwa [take_left' rfl] at whole
  have zero : ∀ b : Buffer, (b.write 0 (ys ++ [0])) ys.length = 0 := fun b => by
    rw [write, if_pos (by omega)]
    simp
  obtain short | ⟨a, long⟩ := h.form k c xs at_k text
  · rw [short.capacity_eq] at room
    have isShort' : isShort (c.write 0 (ys ++ [0])) = true := by
      by_cases last : ys.length = 23
      · -- the terminator falls on the unused capacity
        have tag := zero c
        rw [last] at tag
        rw [isShort, tag]
        rfl
      · rw [isShort, write, if_neg (by omega)]
        exact short.isShort
    have at_k' : (m.setObject k (c.write 0 (ys ++ [0]))).objects k = some (c.write 0 (ys ++ [0])) :=
      update_self ..
    have result := h.put_short at_k short.bufferOf_eq
      (shortForm_setShortSize (c.write 0 (ys ++ [0])) room)
    rw [read] at result
    unfold put
    simp only [object_eq at_k, bind, Except.bind, data, if_pos short.isShort,
      store_object at_k (show 0 + (ys ++ [(0 : UInt8)]).length ≤ 24 by omega)]
    unfold sized
    simp only [object_eq at_k', bind, Except.bind, if_pos isShort', setObject_setObject]
    exact result
  · have capacity := long.capacity_eq
    have result := h.put_long at_k long (b := ⟨a.bytes.write 0 (ys ++ [0]), a.length⟩) rfl
      (n := ys.length) (by omega) (zero a.bytes)
    rw [read] at result
    unfold put
    simp only [object_eq at_k, bind, Except.bind, data, if_neg long.not_isShort,
      store_heap long.buffer 0 (ys ++ [0]) (by omega)]
    unfold sized object
    simp only [at_k, bind, Except.bind, if_neg long.not_isShort, setObject]
    exact result

/-! ## The operations keep the texts -/

theorem reserveIf_ends {needed : Bool} (usable : fresh.Usable m n)
    (enough : needed = false → n ≤ capacity c) :
    Ends (Represents.Reserved m texts k n) (m.reserveIf needed k n fresh) := by
  cases needed with
  | true => exact reserve_ends h text usable
  | false => exact ⟨h, fun _ _ => rfl, c, at_k, enough rfl, fun _ => rfl⟩

end

theorem construct_ends (h : Represents m texts) (unused : m.objects k = none)
    (usable : fresh.Usable m xs.length) :
    Ends (Represents · (update texts k (some xs))) (m.construct k xs fresh) := by
  have created : Represents (m.setObject k (setEmpty initial)) (update texts k (some [])) := by
    refine h.put unused (.inl (shortForm_setEmpty initial)) ?_
    exact .refl _ _
  have text : update texts k (some []) k = some [] := update_self ..
  have finish : ∀ m' c', Represents m' (update texts k (some [])) → m'.objects k = some c' →
      xs.length ≤ capacity c' → Ends (Represents · (update texts k (some xs)))
        (do (← m'.put k 0 xs).terminated k xs.length) := by
    intro m' c' h' at_k room
    have ends := put_terminated_ends h' at_k text (s := 0) xs (Nat.zero_le _) (by rwa [zero_add])
    rwa [update_idem, take_zero, nil_append, zero_add] at ends
  unfold construct
  split_ifs with small
  · exact finish _ _ created (update_self ..) small
  · have usable' : fresh.Usable (m.setObject k (setEmpty initial)) xs.length :=
      { usable with }
    refine Loop.Post.bind (reserve_ends created text usable') ?_
    rintro m' ⟨h', -, c', at_k, room, -⟩
    exact finish m' c' h' at_k room

theorem appendFill_eq (m : Mem) (k count : ℕ) (ch : UInt8) (fresh : Fresh) :
    m.appendFill k count ch fresh = m.appendBytes k (replicate count ch) fresh := by
  simp only [appendFill, appendBytes, length_replicate]

theorem shortForm_copy (form : ShortForm cp ys) (c : Buffer) :
    ShortForm ((c.write 0 (cp.read 0 23)).write 23 [cp 23]) ys := by
  have same : ∀ i < 24, ((c.write 0 (cp.read 0 23)).write 23 [cp 23]) i = cp i := by
    intro i lt
    by_cases last : i = 23
    · rw [last, write_last]
    · rw [write, if_neg (by simp; omega), write, length_read, if_pos (by omega)]
      simp [Buffer.read, show i < 23 by omega]
  have fits := form.fits
  refine ⟨fits, (same 23 (by omega)).trans form.tag, ?_, (same _ (by omega)).trans form.terminated⟩
  rw [read_congr (c := cp) fun i _ lt => same i (by omega)]
  exact form.text

section

variable (h : Represents m texts) (at_k : m.objects k = some c)

include h at_k

section

variable (text : texts k = some xs)

include text

theorem assignC_ends (usable : fresh.Usable m ys.length) :
    Ends (Represents · (update texts k (some ys))) (m.assignC k ys fresh) := by
  unfold assignC
  rw [object_eq at_k, ok_bind]
  refine Loop.Post.bind (reserveIf_ends h at_k text usable fun enough => ?_) ?_
  · have := of_decide_eq_false enough
    omega
  · rintro m' ⟨h', -, c', at_k', room, -⟩
    exact put_sized_ends h' at_k' text room

theorem appendBytes_ends (usable : fresh.Usable m (size c + ys.length)) :
    Ends (Represents · (update texts k (some (xs ++ ys)))) (m.appendBytes k ys fresh) := by
  have size := (h.form k c xs at_k text).size_eq
  unfold appendBytes
  rw [object_eq at_k, ok_bind]
  refine Loop.Post.bind (reserveIf_ends h at_k text usable fun enough => ?_) ?_
  · exact not_lt.mp (of_decide_eq_false enough)
  · rintro m' ⟨h', -, c', at_k', room, -⟩
    rw [size] at room ⊢
    have ends := put_terminated_ends h' at_k' text ys le_rfl room
    rwa [take_length] at ends

theorem appendString_ends (at_j : m.objects j = some cp) (text' : texts j = some ys)
    (usable : fresh.Usable m (size c + size cp)) (spared : k = j → 2 * size c ≤ capacity c) :
    Ends (Represents · (update texts k (some (xs ++ ys)))) (m.appendString k j fresh) := by
  have form := h.form j cp ys at_j text'
  have size := (h.form k c xs at_k text).size_eq
  have size' := form.size_eq
  have finish : ∀ m' c', Represents m' texts → m'.objects k = some c' →
      Str.size c + Str.size cp ≤ capacity c' → m'.load (data j cp) 0 (Str.size cp) = .ok ys →
      Ends (Represents · (update texts k (some (xs ++ ys)))) (do
        let bytes ← m'.load (data j cp) 0 (Str.size cp)
        (← m'.put k (Str.size c) bytes).terminated k (Str.size c + Str.size cp)) := by
    intro m' c' h' at_k' room loaded
    rw [loaded]
    rw [size, size'] at room ⊢
    have ends := put_terminated_ends h' at_k' text ys le_rfl room
    rwa [take_length] at ends
  unfold appendString
  rw [object_eq at_j, ok_bind, object_eq at_k, ok_bind]
  by_cases own : k = j
  · -- there is room, and nothing is moved
    subst own
    obtain rfl := some.inj (at_k.symm.trans at_j)
    have none : decide (capacity c < Str.size c + Str.size c) = false := decide_eq_false (by omega)
    rw [none]
    exact finish m c h at_k (by omega) (load_size at_k form)
  · refine Loop.Post.bind (reserveIf_ends h at_k text usable fun enough => ?_) ?_
    · exact not_lt.mp (of_decide_eq_false enough)
    · rintro m' ⟨h', others, c', at_k', room, -⟩
      have at_j' : m'.objects j = some cp := (others j (Ne.symm own)).trans at_j
      exact finish m' c' h' at_k' room (load_size at_j' (h'.form j cp ys at_j' text'))

theorem copyFrom_ends (at_j : m.objects j = some cp) (text' : texts j = some ys)
    (usable : fresh.Usable m (size cp)) :
    Ends (Represents · (update texts k (some ys))) (m.copyFrom k j fresh) := by
  have form' := h.form j cp ys at_j text'
  unfold copyFrom
  rw [object_eq at_k, ok_bind, object_eq at_j, ok_bind]
  split_ifs with short
  · obtain ⟨short_cp, short_c⟩ := Bool.and_eq_true_iff.mp short
    obtain shortForm | ⟨a, long⟩ := form'
    · refine h.put_short at_k ?_ (shortForm_copy shortForm c)
      rw [bufferOf, if_pos short_c]
    · exact absurd short_cp long.not_isShort
  · refine Loop.Post.bind (reserve_ends h text usable) ?_
    rintro m' ⟨h', -, c', at_k', room, -⟩
    obtain ⟨cp', at_j', form''⟩ := h'.exists_object text'
    have loaded := load_data at_j' form'' le_rfl
    rw [take_of_length_le (by simp)] at loaded
    rw [form'.size_eq] at room ⊢
    rw [object_eq at_j', ok_bind, loaded, ok_bind]
    exact put_sized_ends h' at_k' text room

theorem fill_ends (long : ¬isShort c = true) {count : ℕ} (le : xs.length ≤ count)
    (room : count ≤ capacity c) (ch : UInt8) :
    Ends (Represents · (update texts k (some (xs ++ replicate (count - xs.length) ch))))
      (m.fill k xs.length count ch) := by
  obtain short | ⟨a, form⟩ := h.form k c xs at_k text
  · exact absurd short.isShort long
  · have capacity := form.capacity_eq
    have length := length_replicate (n := count - xs.length) (a := ch)
    have first := store_heap form.buffer xs.length (replicate (count - xs.length) ch) (by omega)
    have last := store_heap_again m (pointer c)
      ⟨a.bytes.write xs.length (replicate (count - xs.length) ch), a.length⟩ count [0]
      (by dsimp only [length_singleton]; omega)
    have result := h.put_long at_k form (b := ⟨(a.bytes.write xs.length
      (replicate (count - xs.length) ch)).write count [0], a.length⟩) rfl (n := count) (by omega)
      (write_last ..)
    have read := read_write_behind a.bytes xs.length (replicate (count - xs.length) ch)
    rw [length, form.text, Nat.add_sub_cancel' le] at read
    rw [read_write_of_disjoint _ (.inl (by omega)), read] at result
    unfold fill
    rw [object_eq at_k, ok_bind, first, ok_bind, last, ok_bind]
    simp only [setObject]
    exact result

theorem resize_ends {count : ℕ} (usable : fresh.Usable m count) (ch : UInt8) :
    Ends (Represents · (update texts k
      (some (xs.take count ++ replicate (count - xs.length) ch)))) (m.resize k count ch fresh) := by
  have form := h.form k c xs at_k text
  have size := form.size_eq
  have same : count = xs.length → Represents m (update texts k
      (some (xs.take count ++ replicate (count - xs.length) ch))) := by
    rintro rfl
    rwa [take_length, Nat.sub_self, replicate_zero, append_nil, Represents.update_same text]
  have shorter : count < xs.length →
      xs.take count ++ replicate (count - xs.length) ch = xs.take count := fun lt => by
    rw [show count - xs.length = 0 by omega, replicate_zero, append_nil]
  have longer : xs.length < count →
      xs.take count ++ replicate (count - xs.length) ch =
        xs ++ replicate (count - xs.length) ch := fun lt => by
    rw [take_of_length_le (by omega)]
  unfold resize
  rw [object_eq at_k, ok_bind]
  obtain short | ⟨a, long⟩ := form
  · rw [if_pos short.isShort, size]
    split_ifs with equal less inside
    · exact same equal.symm
    · rw [shorter less, ← read_prefix short.text less.le]
      exact h.put_short at_k short.bufferOf_eq
        (shortForm_setShortSize c (less.le.trans short.fits))
    · rw [longer (by omega)]
      have result := h.put_short at_k short.bufferOf_eq (shortForm_setShortSize
        (c.write xs.length (replicate (count - xs.length) ch)) inside)
      have read := read_write_behind c xs.length (replicate (count - xs.length) ch)
      rw [length_replicate, short.text, Nat.add_sub_cancel' (by omega)] at read
      rwa [read] at result
    · rw [longer (by omega)]
      refine Loop.Post.bind (reserve_ends h text usable) ?_
      rintro m' ⟨h', -, c', at_k', room, -⟩
      refine fill_ends h' at_k' text (fun isShort' => ?_) (by omega) room ch
      rw [capacity, if_pos isShort'] at room
      omega
  · rw [if_neg long.not_isShort, size]
    have fits := long.fits
    split_ifs with equal less
    · exact same equal
    · rw [shorter less, ← read_prefix long.text less.le]
      have stored := store_heap long.buffer count [0]
        (by rw [length_singleton]; omega)
      have result := h.put_long at_k long (b := ⟨a.bytes.write count [0], a.length⟩) rfl (n := count)
        (by omega) (write_last ..)
      rw [read_write_of_disjoint _ (.inl (by omega))] at result
      rw [stored, ok_bind]
      exact result
    · rw [longer (by omega)]
      refine Loop.Post.bind (reserveIf_ends h at_k text usable fun enough => ?_) ?_
      · exact not_lt.mp (of_decide_eq_false enough)
      · rintro m' ⟨h', -, c', at_k', room, same⟩
        refine fill_ends h' at_k' text (fun isShort' => ?_) (by omega) room ch
        rw [same isShort', at_k] at at_k'
        exact long.not_isShort (some.inj at_k' ▸ isShort')

theorem clear_ends : Ends (Represents · (update texts k (some []))) (m.clear k) := by
  unfold clear
  rw [object_eq at_k, ok_bind]
  obtain short | ⟨a, long⟩ := h.form k c xs at_k text
  · rw [if_pos short.isShort]
    exact h.put_short at_k short.bufferOf_eq (shortForm_setEmpty c)
  · have fits := long.fits
    have stored := store_heap (m := m.setObject k (setPtrSize c 0)) long.buffer 0 [0]
      (by rw [length_singleton]; omega)
    rw [if_neg long.not_isShort, stored]
    exact h.put_long at_k long (b := ⟨a.bytes.write 0 [0], a.length⟩) rfl (n := 0) (by omega)
      (write_last a.bytes 0 0)

theorem release_eq :
    ∃ heap', m.release k = .ok ⟨m.objects, heap'⟩ ∧ Exchange m.heap heap' (bufferOf c) none := by
  unfold release
  rw [object_eq at_k, ok_bind]
  obtain short | ⟨a, long⟩ := h.form k c xs at_k text
  · refine ⟨m.heap, by rw [if_pos short.isShort]; rfl, ?_⟩
    rw [short.bufferOf_eq]
    exact .refl _ _
  · refine ⟨update m.heap (pointer c) none, ?_, ?_⟩
    · rw [if_neg long.not_isShort]
      unfold deallocate
      simp only [long.buffer]
      rw [if_pos long.capacity.symm]
      rfl
    · rw [long.bufferOf_eq]
      exact .give ..

end

theorem represents_destroyed {heap' : ℕ → Option Alloc}
    (exchange : Exchange m.heap heap' (bufferOf c) none) :
    Represents ⟨update m.objects k none, heap'⟩ (update texts k none) :=
  h.replace at_k none (fun _ same => by cases same) exchange

theorem destroy_ends (text : texts k = some xs) :
    Ends (Represents · (update texts k none)) (m.destroy k) := by
  obtain ⟨heap', released, exchange⟩ := release_eq h at_k text
  unfold destroy
  rw [released, ok_bind]
  exact represents_destroyed h at_k exchange

end

theorem represents_moved (h : Represents m texts) (unused : m.objects k = none) {e : Buffer}
    (at_j : m.objects j = some mv) (text : texts j = some ys) (empty : ShortForm e []) :
    ∃ rest, (rest = ys ∨ rest = []) ∧
      Represents (if isShort mv then m.setObject k mv else (m.setObject k mv).setObject j e)
        (update (update texts k (some ys)) j (some rest)) := by
  have ne : j ≠ k := by
    rintro rfl
    rw [unused] at at_j
    cases at_j
  obtain short | ⟨a, long⟩ := h.form j mv ys at_j text
  · refine ⟨ys, .inl rfl, ?_⟩
    have moved : Represents (m.setObject k mv) (update texts k (some ys)) := by
      refine h.put unused (.inl short) ?_
      rw [short.bufferOf_eq]
      exact .refl _ _
    rw [if_pos short.isShort, Represents.update_same (by rw [update_of_ne ne, text])]
    exact moved
  · refine ⟨[], .inr rfl, ?_⟩
    rw [if_neg long.not_isShort]
    -- the buffer changes its owner: as if it were released and taken again
    have left : Represents ⟨update m.objects j (some e),
        update m.heap (pointer mv) none⟩ (update texts j (some [])) := by
      refine h.put at_j (.inl empty) ?_
      rw [bind_some, long.bufferOf_eq, empty.bufferOf_eq]
      exact .give ..
    have unused' : update m.objects j (some e) k = none := by
      rw [update_of_ne ne.symm, unused]
    have taken : Represents ⟨update (update m.objects j (some e)) k (some mv), m.heap⟩
        (update (update texts j (some [])) k (some ys)) := by
      refine left.put unused' (.inr ⟨a, long⟩) ?_
      rw [bind_none, long.bufferOf_eq]
      exact (Exchange.give m.heap (pointer mv)).symm
    rw [update_comm ne, update_comm ne] at taken
    exact taken

theorem moveConstruct_ends (h : Represents m texts) (unused : m.objects k = none)
    (at_j : m.objects j = some mv) (text : texts j = some ys) :
    ∃ rest, (rest = ys ∨ rest = []) ∧
      Ends (Represents · (update (update texts k (some ys)) j (some rest)))
        (m.moveConstruct k j) := by
  obtain ⟨rest, left, moved⟩ := represents_moved h unused at_j text (shortForm_setEmpty initial)
  refine ⟨rest, left, ?_⟩
  unfold moveConstruct
  rw [object_eq at_j, ok_bind]
  exact moved

theorem moveAssign_ends (h : Represents m texts) (at_k : m.objects k = some c)
    (text : texts k = some xs) (ne : k ≠ j) (at_j : m.objects j = some mv)
    (text' : texts j = some ys) :
    ∃ rest, (rest = ys ∨ rest = []) ∧
      Ends (Represents · (update (update texts k (some ys)) j (some rest)))
        (m.moveAssign k j) := by
  obtain ⟨heap', released, exchange⟩ := release_eq h at_k text
  have gone := represents_destroyed h at_k exchange
  obtain ⟨rest, left, moved⟩ := represents_moved gone (update_self ..)
    (by rw [← at_j]; exact update_of_ne ne.symm _ _)
    (by rw [update_of_ne ne.symm, text']) (shortForm_setEmpty mv)
  refine ⟨rest, left, ?_⟩
  simp only [setObject, update_idem] at moved
  unfold moveAssign
  rw [released, ok_bind, object_eq (m := ⟨m.objects, heap'⟩) at_j, ok_bind]
  exact moved

end Ops

/-! ## Whole programs -/

/-- What an operation makes of the texts.  A move may leave the text or an empty string behind. -/
def Op.Makes (texts : Texts) (texts' : Texts) : Op → Prop
  | .create k => texts' = update texts k (some [])
  | .construct k xs _ | .assignC k xs _ => texts' = update texts k (some xs)
  | .copy k from_ _ | .assign k from_ _ =>
    ∃ ys, texts from_ = some ys ∧ texts' = update texts k (some ys)
  | .move k from_ => ∃ ys rest, texts from_ = some ys ∧ (rest = ys ∨ rest = []) ∧
      texts' = update (update texts k (some ys)) from_ (some rest)
  | .assignMove k from_ =>
    if k = from_ then texts' = texts
    else ∃ ys rest, texts from_ = some ys ∧ (rest = ys ∨ rest = []) ∧
      texts' = update (update texts k (some ys)) from_ (some rest)
  | .appendFill k count ch _ =>
    ∃ xs, texts k = some xs ∧
      texts' = update texts k (some (xs ++ replicate count ch))
  | .appendBytes k ys _ => ∃ xs, texts k = some xs ∧ texts' = update texts k (some (xs ++ ys))
  | .appendString k from_ _ => ∃ xs ys, texts k = some xs ∧ texts from_ = some ys ∧
      texts' = update texts k (some (xs ++ ys))
  | .reserve _ _ _ => texts' = texts
  | .resize k n ch _ => ∃ xs, texts k = some xs ∧
      texts' = update texts k (some (xs.take n ++ replicate (n - xs.length) ch))
  | .clear k => texts' = update texts k (some [])
  | .destroy k => texts' = update texts k none

inductive Made : Texts → List Op → Texts → Prop
  | nil (texts : Texts) : Made texts [] texts
  | cons {ops op texts texts' texts''} :
      op.Makes texts texts' → Made texts' ops texts'' → Made texts (op :: ops) texts''

/-- What the caller sees to: the strings exist or are new, a C string has no zero in it; and what the
allocator sees to. -/
def Legal (m : Mem) : Op → Prop
  | .create k => m.objects k = none
  | .construct k xs fresh => m.objects k = none ∧ fresh.Usable m xs.length
  | .copy k from_ fresh =>
    m.objects k = none ∧ ∃ cp, m.objects from_ = some cp ∧ fresh.Usable m (size cp)
  | .move k from_ => m.objects k = none ∧ ∃ mv, m.objects from_ = some mv
  | .assign k from_ fresh => (∃ c, m.objects k = some c) ∧
      ∃ cp, m.objects from_ = some cp ∧ fresh.Usable m (size cp)
  | .assignMove k from_ => (∃ c, m.objects k = some c) ∧ ∃ mv, m.objects from_ = some mv
  | .assignC k xs fresh => (∃ c, m.objects k = some c) ∧ 0 ∉ xs ∧ fresh.Usable m xs.length
  | .appendFill k count _ fresh => ∃ c, m.objects k = some c ∧ fresh.Usable m (size c + count)
  | .appendBytes k xs fresh => ∃ c, m.objects k = some c ∧ fresh.Usable m (size c + xs.length)
  | .appendString k from_ fresh => ∃ c cp, m.objects k = some c ∧ m.objects from_ = some cp ∧
      fresh.Usable m (size c + size cp)
  | .reserve k n fresh | .resize k n _ fresh => (∃ c, m.objects k = some c) ∧ fresh.Usable m n
  | .clear k | .destroy k => ∃ c, m.objects k = some c

/-- A string is appended to itself only if it has room for the result. -/
def Spared (m : Mem) : Op → Prop
  | .appendString k from_ _ => k = from_ → ∀ c, m.objects k = some c → 2 * size c ≤ capacity c
  | _ => True

structure Shows (m : Mem) (texts : Texts) : Prop where
  same : ∀ k, (m.objects k).isSome = (texts k).isSome
  size : ∀ k c xs, m.objects k = some c → texts k = some xs → size c = xs.length
  data : ∀ k c xs, m.objects k = some c → texts k = some xs →
    m.load (data k c) 0 (xs.length + 1) = .ok (xs ++ [0])
  owned : ∀ addr, (m.heap addr).isSome = true →
    ∃ k, (∃ c, m.objects k = some c ∧ bufferOf c = some addr) ∧
      ∀ k' c, m.objects k' = some c → bufferOf c = some addr → k' = k

theorem Represents.shows {m : Mem} {texts : Texts} (h : Represents m texts) : Shows m texts where
  same := h.same
  size k c xs at_k text := (h.form k c xs at_k text).size_eq
  data k c xs at_k text := by
    rw [load_data at_k (h.form k c xs at_k text) le_rfl, take_of_length_le (by simp)]
  owned addr live := by
    obtain ⟨k, c, at_k, buffer⟩ := h.owned addr live
    exact ⟨k, ⟨c, at_k, buffer⟩, fun k' c' at_k' buffer' =>
      h.unique k' k c' c addr at_k' at_k buffer' buffer⟩

namespace Mem

def none : Mem := ⟨fun _ => .none, fun _ => .none⟩

def step (m : Mem) (op : Op) : Option Mem := (m.exec op).toOption

variable {m : Mem} {texts : Texts}

theorem exec_ends {op : Op} (h : Represents m texts) (legal : Legal m op) (spared : Spared m op) :
    ∃ texts', op.Makes texts texts' ∧ Ends (Represents · texts') (m.exec op) := by
  cases op with
  | create k =>
    refine ⟨_, rfl, h.put legal (.inl (shortForm_setEmpty initial)) ?_⟩
    exact .refl _ _
  | construct k xs fresh => exact ⟨_, rfl, construct_ends h legal.1 legal.2⟩
  | copy k from_ fresh =>
    obtain ⟨unused, cp, at_cp, usable⟩ := legal
    obtain ⟨ys, text, -⟩ := h.exists_text at_cp
    have ne : from_ ≠ k := by
      rintro rfl
      rw [unused] at at_cp
      cases at_cp
    -- the container as it is constructed is a string of one zero
    have form : ShortForm initial [0] := ⟨by decide, rfl, rfl, rfl⟩
    have created : Represents (m.setObject k initial) (update texts k (some [0])) := by
      refine h.put unused (.inl form) ?_
      exact .refl _ _
    refine ⟨_, ⟨ys, text, rfl⟩, ?_⟩
    have at_cp' : (m.setObject k initial).objects from_ = some cp :=
      (update_of_ne ne _ _).trans at_cp
    have text' : update texts k (some [0]) from_ = some ys := by
      rw [update_of_ne ne, text]
    have ends := copyFrom_ends created (update_self ..) (update_self ..) at_cp' text'
      { usable with }
    rwa [update_idem] at ends
  | move k from_ =>
    obtain ⟨unused, mv, at_mv⟩ := legal
    obtain ⟨ys, text, -⟩ := h.exists_text at_mv
    obtain ⟨rest, left, ends⟩ := moveConstruct_ends h unused at_mv text
    exact ⟨_, ⟨ys, rest, text, left, rfl⟩, ends⟩
  | assign k from_ fresh =>
    obtain ⟨⟨c, at_k⟩, cp, at_cp, usable⟩ := legal
    obtain ⟨xs, text, -⟩ := h.exists_text at_k
    obtain ⟨ys, text', -⟩ := h.exists_text at_cp
    exact ⟨_, ⟨ys, text', rfl⟩, copyFrom_ends h at_k text at_cp text' usable⟩
  | assignMove k from_ =>
    obtain ⟨⟨c, at_k⟩, mv, at_mv⟩ := legal
    obtain ⟨xs, text, -⟩ := h.exists_text at_k
    obtain ⟨ys, text', -⟩ := h.exists_text at_mv
    simp only [Op.Makes, exec]
    by_cases same : k = from_
    · simp only [if_pos same]
      exact ⟨texts, rfl, h⟩
    · obtain ⟨rest, left, ends⟩ := moveAssign_ends h at_k text same at_mv text'
      simp only [if_neg same]
      exact ⟨_, ⟨ys, rest, text', left, rfl⟩, ends⟩
  | assignC k ys fresh =>
    obtain ⟨⟨c, at_k⟩, -, usable⟩ := legal
    obtain ⟨xs, text, -⟩ := h.exists_text at_k
    exact ⟨_, rfl, assignC_ends h at_k text usable⟩
  | appendFill k count ch fresh =>
    obtain ⟨c, at_k, usable⟩ := legal
    obtain ⟨xs, text, -⟩ := h.exists_text at_k
    refine ⟨_, ⟨xs, text, rfl⟩, ?_⟩
    rw [exec, appendFill_eq]
    exact appendBytes_ends h at_k text (by rwa [length_replicate])
  | appendBytes k ys fresh =>
    obtain ⟨c, at_k, usable⟩ := legal
    obtain ⟨xs, text, -⟩ := h.exists_text at_k
    exact ⟨_, ⟨xs, text, rfl⟩, appendBytes_ends h at_k text usable⟩
  | appendString k from_ fresh =>
    obtain ⟨c, cp, at_k, at_cp, usable⟩ := legal
    obtain ⟨xs, text, -⟩ := h.exists_text at_k
    obtain ⟨ys, text', -⟩ := h.exists_text at_cp
    exact ⟨_, ⟨xs, ys, text, text', rfl⟩,
      appendString_ends h at_k text at_cp text' usable fun own => spared own c at_k⟩
  | reserve k n fresh =>
    obtain ⟨⟨c, at_k⟩, usable⟩ := legal
    obtain ⟨xs, text, -⟩ := h.exists_text at_k
    exact ⟨_, rfl, (reserve_ends h text usable).mono fun _ => And.left⟩
  | resize k n ch fresh =>
    obtain ⟨⟨c, at_k⟩, usable⟩ := legal
    obtain ⟨xs, text, -⟩ := h.exists_text at_k
    exact ⟨_, ⟨xs, text, rfl⟩, resize_ends h at_k text usable ch⟩
  | clear k =>
    obtain ⟨c, at_k⟩ := legal
    obtain ⟨xs, text, -⟩ := h.exists_text at_k
    exact ⟨_, rfl, clear_ends h at_k text⟩
  | destroy k =>
    obtain ⟨c, at_k⟩ := legal
    obtain ⟨xs, text, -⟩ := h.exists_text at_k
    exact ⟨_, rfl, destroy_ends h at_k text⟩

theorem represents_none : Represents none fun _ => .none where
  same _ := rfl
  form _ _ _ at_k := by cases at_k
  unique _ _ _ _ _ at_k := by cases at_k
  owned _ live := by cases live

theorem represents_run {ops : List Op} {m' : Mem} (h : Represents m texts)
    (run : Machine.RunWhen (fun m op => Legal m op ∧ Spared m op) step m ops m') :
    ∃ texts', Made texts ops texts' ∧ Represents m' texts' := by
  induction run generalizing texts with
  | nil => exact ⟨texts, .nil texts, h⟩
  | @cons m u m' op ops allowed taken _ ih =>
    obtain ⟨texts₁, makes, ends⟩ := exec_ends h allowed.1 allowed.2
    obtain ⟨u', result, represents⟩ := ends.exists_ok
    rw [step, result] at taken
    cases taken
    obtain ⟨texts₂, made, final⟩ := ih represents
    exact ⟨texts₂, .cons makes made, final⟩

def Refines (ops : List Op) (m : Mem) : Prop := ∃ texts, Made (fun _ => .none) ops texts ∧ Shows m texts

/-- If no string is appended to itself without room for the result, the strings have the texts that
the operations make, and the next such operation meets no fault. -/
theorem texts_of_spared {ops : List Op}
    (run : Machine.RunWhen (fun m op => Legal m op ∧ Spared m op) step none ops m) :
    Refines ops m ∧ ∀ op, Legal m op → Spared m op → ∃ m', m.exec op = .ok m' := by
  obtain ⟨texts, made, represents⟩ := represents_run represents_none run
  refine ⟨⟨texts, made, represents.shows⟩, fun op legal spared => ?_⟩
  obtain ⟨texts', -, ends⟩ := exec_ends represents legal spared
  obtain ⟨m', result, -⟩ := ends.exists_ok
  exact ⟨m', result⟩

def cleared (addr : ℕ) : Fresh := ⟨addr, fun _ => 0⟩

/-- A string of two characters is appended to itself, made long and destroyed. -/
theorem texts_doubled :
    ∃ m, Machine.RunWhen (fun m op => Legal m op ∧ Spared m op) step none
      [.construct 0 [97, 98] (cleared 4096), .appendString 0 0 (cleared 4096),
        .reserve 0 24 (cleared 4096), .destroy 0] m ∧
      Refines [.construct 0 [97, 98] (cleared 4096), .appendString 0 0 (cleared 4096),
        .reserve 0 24 (cleared 4096), .destroy 0] m := by
  refine Machine.RunWhen.reaches (.cons ⟨⟨rfl, rfl, by decide, by decide⟩, trivial⟩ rfl
    (.cons ⟨⟨_, _, rfl, rfl, rfl, by decide, ?_⟩, fun _ c at_c => ?_⟩ rfl
      (.cons ⟨⟨⟨_, rfl⟩, rfl, by decide, by decide⟩, trivial⟩ rfl
        (.cons ⟨⟨_, rfl⟩, trivial⟩ rfl (.nil _))))) fun run => (texts_of_spared run).1
  · decide
  · cases at_c
    decide

/-- Twelve characters are appended to themselves: the string gets long before they are read, and what
is read is the pointer to the new buffer. -/
theorem not_texts_self_append :
    ∃ m, Machine.RunWhen Legal step none
      [.construct 0 (replicate 12 97) (cleared 4096), .appendString 0 0 (cleared 4096)] m ∧
      ¬Refines [.construct 0 (replicate 12 97) (cleared 4096), .appendString 0 0 (cleared 4096)]
        m := by
  refine ⟨_, .cons ⟨rfl, rfl, by decide, by decide⟩ rfl
    (.cons ⟨_, _, rfl, rfl, rfl, by decide, ?_⟩ rfl (.nil _)), ?_⟩
  · decide
  · rintro ⟨texts, made, shown⟩
    obtain _ | ⟨rfl, _ | ⟨⟨xs, ys, text, text', rfl⟩, _ | _⟩⟩ := made
    cases text
    obtain rfl := some.inj text'
    have data := shown.data 0 _ _ rfl (update_self ..)
    have wrong := congrArg (fun r => r.toOption.map (·.getD 12 0)) data
    exact absurd wrong (by decide)

end Mem

end JeoKernel.Str
