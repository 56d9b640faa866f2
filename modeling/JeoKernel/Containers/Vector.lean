import JeoKernel.Lib.Machine
import JeoKernel.Lib.Pointwise
import JeoKernel.Lib.Slots

/-!
# `std::vector`

A vector constructs and destroys its elements by hand in raw storage.  An argument may be a reference
to one of its own elements; such a reference is of no use any more once the storage was replaced.
The vectors of a program are compared with lists under the same operations.
-/

namespace JeoKernel.Vec

open List Option Slots Loop JeoKernel.Pointwise

/-! ## The operations -/

/-- What is known of an element type: its size, the value that the default constructor makes, and the
value that a move leaves behind. -/
structure ElementType (α : Type) where
  sizeof : ℕ
  default : α
  movedFrom : α → α

def ElementType.minimumSize {α : Type} (T : ElementType α) : ℕ :=
  if 16 < T.sizeof then 1 else 16 / T.sizeof

variable {α : Type}

/-- `vector_container`.  `storage` counts the storages that the vector has had, so that a reference
into an earlier one is known to be dangling. -/
structure Vector (α : Type) where
  data : Option (Slots α)
  size : ℕ
  capacity : ℕ
  storage : ℕ

/-- An argument that is passed by reference: an object outside the vector, or one of its elements. -/
inductive Source (α : Type)
  | value (x : α)
  | own (index : ℕ)

namespace Vector

def empty : Vector α := ⟨none, 0, 0, 0⟩

/-- The storage behind `_data`; a null pointer is outside every storage. -/
def cells (v : Vector α) : Except Fault (Slots α) :=
  match v.data with
  | none => .error .outside
  | some s => .ok s

/-- `at` and `operator[]`; an index that is not in the vector gives a null pointer. -/
def elementAt (v : Vector α) (i : ℕ) : Except Fault α := do
  if i < v.size then (← v.cells).read i else .error .outside

def iterate (v : Vector α) : Except Fault (List α) :=
  Loop.forRange 0 v.size (fun i seen => do return seen ++ [← (← v.cells).read i]) []

def live (v : Vector α) : ℕ := (v.data.map Slots.live).getD 0

/-- An element is moved to slot `j` of other storage, and the object that it was moved from is
destroyed. -/
def relocate (T : ElementType α) (i j : ℕ) (s : Slots α × Slots α) :
    Except Fault (Slots α × Slots α) := do
  let x ← s.1.read i
  let new ← s.2.construct j x
  let old ← s.1.assign i (T.movedFrom x)
  return (← old.destroy i, new)

def reserve (T : ElementType α) (v : Vector α) (newCap : ℕ) : Except Fault (Vector α) := do
  let newCap := if newCap < T.minimumSize then T.minimumSize else newCap
  match v.data with
  | some old =>
    if v.capacity < newCap then
      let moved ← Loop.forRange 0 v.size (fun i => relocate T i i) (old, Slots.raw newCap)
      moved.1.release
      return ⟨some moved.2, v.size, newCap, v.storage + 1⟩
    else return v
  | none => return ⟨some (Slots.raw newCap), v.size, newCap, v.storage + 1⟩

def ensure (T : ElementType α) (v : Vector α) (n : ℕ) : Except Fault (Vector α) :=
  if v.capacity < n then v.reserve T n else return v

/-- `reserve`, as the operations that add an element call it. -/
def grow (T : ElementType α) (v : Vector α) : Except Fault (Vector α) :=
  if v.capacity ≤ v.size + 1 then v.reserve T (v.size + 1) else return v

/-- The object that the argument refers to, in the vector `v`; the reference was made when the vector
had the storage `storage`. -/
def deref (v : Vector α) (storage : ℕ) : Source α → Except Fault α
  | .value x => return x
  | .own index => do if v.storage = storage then (← v.cells).read index else .error .dangling

def append (v : Vector α) (x : α) : Except Fault (Vector α) := do
  let s ← (← v.cells).construct v.size x
  return { v with data := some s, size := v.size + 1 }

def pushBack (T : ElementType α) (v : Vector α) (arg : Source α) : Except Fault (Vector α) := do
  let w ← v.grow T
  w.append (← w.deref v.storage arg)

def moveOut (T : ElementType α) (v : Vector α) (x : α) : Source α → Except Fault (Vector α)
  | .value _ => return v
  | .own index => do
    let s ← (← v.cells).assign index (T.movedFrom x)
    return { v with data := some s }

def pushBackMove (T : ElementType α) (v : Vector α) (arg : Source α) :
    Except Fault (Vector α) := do
  let w ← v.grow T
  let x ← w.deref v.storage arg
  (← w.append x).moveOut T x arg

def emplaceBack (T : ElementType α) (v : Vector α) (args : List (Source α)) (make : List α → α) :
    Except Fault (Vector α) := do
  let w ← v.grow T
  w.append (make (← args.mapM (w.deref v.storage)))

def destroyRange (lo hi : ℕ) (s : Slots α) : Except Fault (Slots α) :=
  Loop.forRange lo hi (fun i s => s.destroy i) s

def clear (v : Vector α) : Except Fault (Vector α) :=
  match v.data with
  | none => return v
  | some s => do return { v with data := some (← destroyRange 0 v.size s), size := 0 }

/-- The last element that the loop of `erase` moves is the one at `size`. -/
def erase (T : ElementType α) (v : Vector α) (index : ℕ) : Except Fault (Vector α) := do
  let s ← (← v.cells).destroy index
  let size := v.size - 1
  let s ← Loop.forRange index size (fun del s => do
    let x ← s.read (del + 1)
    let s ← s.construct del x
    let s ← s.assign (del + 1) (T.movedFrom x)
    s.destroy (del + 1)) s
  return { v with data := some s, size := size }

/-- A smaller size destroys elements and leaves `_size` as it is. -/
def resize (T : ElementType α) (v : Vector α) (sz : ℕ) : Except Fault (Vector α) := do
  let v ← v.ensure T sz
  if v.size < sz then
    let s ← Loop.forRange v.size sz (fun i s => s.construct i T.default) (← v.cells)
    return { v with data := some s, size := sz }
  else if sz < v.size then
    return { v with data := some (← destroyRange sz v.size (← v.cells)) }
  else return v

def destroy (v : Vector α) : Except Fault Unit :=
  match v.data with
  | none => return ()
  | some s => do (← destroyRange 0 v.size s).release

def pushAll (T : ElementType α) (v cp : Vector α) : Except Fault (Vector α) :=
  Loop.forRange 0 cp.size (fun i v => do v.pushBack T (.value (← (← cp.cells).read i))) v

def copy (T : ElementType α) (cp : Vector α) : Except Fault (Vector α) := do
  (← empty.reserve T cp.size).pushAll T cp

def vacate (v : Vector α) : Except Fault (Vector α) :=
  match v.data with
  | none => return { v with size := 0 }
  | some s => do return { v with data := some (← destroyRange 0 v.size s), size := 0 }

def assignCopy (T : ElementType α) (v cp : Vector α) : Except Fault (Vector α) := do
  let v ← v.vacate
  let v ← v.ensure T cp.size
  v.pushAll T cp

end Vector

/-! ## A program with several vectors -/

inductive Op (α : Type)
  | create
  | pushBack (k : ℕ) (arg : Source α)
  | pushBackMove (k : ℕ) (arg : Source α)
  | emplaceBack (k : ℕ) (args : List (Source α)) (make : List α → α)
  | erase (k index : ℕ)
  | resize (k sz : ℕ)
  | reserve (k n : ℕ)
  | clear (k : ℕ)
  | copy (from_ : ℕ)
  | move (from_ : ℕ)
  | assignCopy (k from_ : ℕ)
  | assignMove (k from_ : ℕ)
  | destroy (k : ℕ)

abbrev Program (α : Type) := List (Vector α)

namespace Program

def update (s : Program α) (k : ℕ) (f : Vector α → Except Fault (Vector α)) :
    Except Fault (Program α) :=
  match s[k]? with
  | none => .error .missing
  | some v => do return s.set k (← f v)

def emptied (v : Vector α) : Vector α := ⟨none, 0, 0, v.storage⟩

def exec (T : ElementType α) (s : Program α) : Op α → Except Fault (Program α)
  | .create => return s ++ [.empty]
  | .pushBack k arg => s.update k (Vector.pushBack T · arg)
  | .pushBackMove k arg => s.update k (Vector.pushBackMove T · arg)
  | .emplaceBack k args make => s.update k (Vector.emplaceBack T · args make)
  | .erase k index => s.update k (Vector.erase T · index)
  | .resize k sz => s.update k (Vector.resize T · sz)
  | .reserve k n => s.update k (Vector.reserve T · n)
  | .clear k => s.update k Vector.clear
  | .copy from_ =>
    match s[from_]? with
    | none => .error .missing
    | some cp => do return s ++ [← Vector.copy T cp]
  | .move from_ =>
    match s[from_]? with
    | none => .error .missing
    | some mv => return s.set from_ (emptied mv) ++ [mv]
  | .assignCopy k from_ =>
    if k = from_ then return s
    else
      match s[from_]? with
      | none => .error .missing
      | some cp => s.update k (Vector.assignCopy T · cp)
  | .assignMove k from_ =>
    if k = from_ then return s
    else
      match s[from_]? with
      | none => .error .missing
      | some mv => do return (← s.update k fun v => do v.destroy; return mv).set from_ (emptied mv)
  | .destroy k =>
    match s[k]? with
    | none => .error .missing
    | some v => do v.destroy; return s.eraseIdx k

end Program

/-! ## The same operations on lists -/

def Source.denote (xs : List α) : Source α → Option α
  | .value x => some x
  | .own index => xs[index]?

/-- What a move from the argument leaves in the sequence. -/
def Source.leave (T : ElementType α) (xs : List α) : Source α → List α
  | .value _ => xs
  | .own index => xs.modify index T.movedFrom

def updateList (xss : List (List α)) (k : ℕ) (f : List α → Option (List α)) :
    Option (List (List α)) :=
  xss[k]?.bind fun xs => (f xs).map (xss.set k ·)

def Op.apply (T : ElementType α) (xss : List (List α)) : Op α → Option (List (List α))
  | .create => some (xss ++ [[]])
  | .pushBack k arg => updateList xss k fun xs => (arg.denote xs).map (xs ++ [·])
  | .pushBackMove k arg => updateList xss k fun xs => (arg.denote xs).map (arg.leave T xs ++ [·])
  | .emplaceBack k args make =>
    updateList xss k fun xs => (args.mapM (Source.denote xs)).map fun ys => xs ++ [make ys]
  | .erase k index => updateList xss k fun xs => if index < xs.length then xs.eraseIdx index else none
  | .resize k sz =>
    updateList xss k fun xs => some (xs.take sz ++ replicate (sz - xs.length) T.default)
  | .reserve k _ => updateList xss k some
  | .clear k => updateList xss k fun _ => some []
  | .copy from_ => xss[from_]?.map fun xs => xss ++ [xs]
  | .move from_ => xss[from_]?.map fun xs => xss.set from_ [] ++ [xs]
  | .assignCopy k from_ => xss[from_]?.bind fun ys => updateList xss k fun _ => some ys
  | .assignMove k from_ =>
    if k = from_ then some xss
    else xss[from_]?.bind fun ys => (updateList xss k fun _ => some ys).map (·.set from_ [])
  | .destroy k => xss[k]?.map fun _ => xss.eraseIdx k

/-! ## One vector -/

structure Holds (T : ElementType α) (v : Vector α) (xs : List α) : Prop where
  size : v.size = xs.length
  null : v.data = none → v.capacity = 0 ∧ xs = []
  slots : ∀ s, v.data = some s → s.Holds xs ∧ s.length = v.capacity ∧ T.minimumSize ≤ v.capacity

/-- If the argument is a reference to an own element, there is room for one more. -/
def Source.Spared (v : Vector α) (arg : Source α) : Prop :=
  ∀ index, arg = .own index → v.size < v.capacity

namespace Vector

variable {T : ElementType α} {v w : Vector α} {xs ys : List α} {s : Slots α} {x : α}

theorem holds_empty : Holds T (.empty : Vector α) [] := ⟨rfl, fun _ => ⟨rfl, rfl⟩, by simp [empty]⟩

theorem holds_some {size capacity storage : ℕ} (length : size = xs.length) (held : s.Holds xs)
    (whole : s.length = capacity) (large : T.minimumSize ≤ capacity) :
    Holds T ⟨some s, size, capacity, storage⟩ xs := by
  refine ⟨length, by simp, fun s' same => ?_⟩
  cases same
  exact ⟨held, whole, large⟩

theorem exists_data (h : Holds T v xs) (used : 0 < v.capacity ∨ 0 < xs.length) :
    ∃ s, v.data = some s := by
  cases data : v.data with
  | none =>
    obtain ⟨capacity, rfl⟩ := h.null data
    rw [length_nil] at used
    omega
  | some s => exact ⟨s, rfl⟩

theorem relocate_eq {i j : ℕ} {old new : Slots α} (inside : i < old.length)
    (here : old.obj i = some x) (inside' : j < new.length) (free : new.obj j = none) :
    relocate T i j (old, new) = .ok (old.set i none, new.set j (some x)) := by
  have length : i < (old.set i (some (T.movedFrom x))).length := by rwa [length_set]
  have there : obj (old.set i (some (T.movedFrom x))) i = some (T.movedFrom x) := by
    rw [obj_set inside, if_pos rfl]
  unfold relocate
  rw [read_eq inside here]
  simp only [bind, Except.bind, construct_eq inside' free, assign_eq inside here,
    destroy_eq length there, set_set]
  rfl

/-- Where the objects are before turn `i` of the loop of `reserve`. -/
structure Moving (xs : List α) (length newCap i : ℕ) (s : Slots α × Slots α) : Prop where
  length_old : s.1.length = length
  length_new : s.2.length = newCap
  old : ∀ j, s.1.obj j = if j < i then none else xs[j]?
  new : ∀ j, s.2.obj j = if j < i then xs[j]? else none

theorem Moving.succ {length newCap i : ℕ} {p : Slots α × Slots α} (h : Moving xs length newCap i p)
    (inside : i < xs.length) (fits : xs.length ≤ length) (fits' : xs.length ≤ newCap) :
    Ends (Moving xs length newCap (i + 1)) (relocate T i i p) := by
  have here : p.1.obj i = some xs[i] := by
    rw [h.old, if_neg (lt_irrefl i), getElem?_eq_getElem inside]
  have free : p.2.obj i = none := by rw [h.new, if_neg (lt_irrefl i)]
  have in_old : i < p.1.length := by rw [h.length_old]; omega
  have in_new : i < p.2.length := by rw [h.length_new]; omega
  rw [show p = (p.1, p.2) from rfl, relocate_eq in_old here in_new free]
  refine ⟨by rw [length_set, h.length_old], by rw [length_set, h.length_new],
    fun j => ?_, fun j => ?_⟩
  · rw [obj_set in_old, h.old]
    split_ifs <;> first | rfl | omega
  · rw [obj_set in_new, h.new]
    split_ifs with same
    · rw [same, getElem?_eq_getElem inside]
    · omega
    · rfl
    · omega
    · omega
    · rfl

/-- `reserve` keeps the elements, and keeps the storage if there is room in it. -/
theorem reserve_ends (h : Holds T v xs) (n : ℕ) :
    Ends (fun w => Holds T w xs ∧ n ≤ w.capacity ∧ w.data.isSome = true ∧
      (v.data.isSome = true → n ≤ v.capacity → w.storage = v.storage)) (v.reserve T n) := by
  obtain ⟨newCap, cap⟩ : ∃ newCap, newCap = if n < T.minimumSize then T.minimumSize else n := ⟨_, rfl⟩
  have large : n ≤ newCap ∧ T.minimumSize ≤ newCap := by split_ifs at cap <;> omega
  have one_of : newCap = T.minimumSize ∨ newCap = n := by split_ifs at cap <;> simp [cap]
  unfold reserve
  rw [← cap]
  cases data : v.data with
  | none =>
    obtain ⟨-, rfl⟩ := h.null data
    exact ⟨holds_some h.size (.raw newCap) length_replicate large.2, large.1, rfl, by simp⟩
  | some old =>
    obtain ⟨held, whole, minimum⟩ := h.slots old data
    dsimp only
    split_ifs with grows
    · have start : Moving xs v.capacity newCap 0 (old, raw newCap) :=
        ⟨whole, length_replicate, fun j => by rw [if_neg (Nat.not_lt_zero j)]; exact held.obj j,
          fun j => by rw [if_neg (Nat.not_lt_zero j)]; exact obj_raw newCap j⟩
      have fits := held.fits
      rw [whole] at fits
      refine Loop.Post.bind (forRange_post (I := Moving xs v.capacity newCap) (Nat.zero_le _)
        (fun i p _ turn moving => moving.succ (by rwa [← h.size]) fits (by omega)) start) ?_
      intro p moved
      have gone : p.1.Holds [] := ⟨Nat.zero_le _, fun j => by
        rw [moved.old, getElem?_nil]
        split_ifs with lt
        · rfl
        · exact getElem?_eq_none (by have := h.size; omega)⟩
      have here : p.2.Holds xs := ⟨by rw [moved.length_new]; omega, fun j => by
        rw [moved.new]
        split_ifs with lt
        · rfl
        · exact (getElem?_eq_none (by have := h.size; omega)).symm⟩
      rw [gone.release_eq]
      exact ⟨holds_some h.size here moved.length_new large.2, large.1, rfl,
        fun _ room => absurd grows (by omega)⟩
    · refine ⟨h, by omega, by rw [data]; rfl, fun _ _ => rfl⟩

theorem grow_ends (h : Holds T v xs) :
    Ends (fun w => Holds T w xs ∧ (∃ s, w.data = some s ∧ xs.length < s.length) ∧
      (v.size < v.capacity → w.storage = v.storage)) (v.grow T) := by
  unfold grow
  split_ifs with full
  · refine (reserve_ends h (v.size + 1)).mono ?_
    rintro w ⟨held, room, isSome, same⟩
    obtain ⟨s, data⟩ := isSome_iff_exists.mp isSome
    have length := (held.slots s data).2.1
    have := h.size
    refine ⟨held, ⟨s, data, by omega⟩, fun less => same ?_ less⟩
    obtain ⟨s', data'⟩ := exists_data h (.inl (by omega))
    rw [data']
    rfl
  · obtain ⟨s, data⟩ := exists_data h (.inl (by omega))
    have length := (h.slots s data).2.1
    have := h.size
    exact ⟨h, ⟨s, data, by omega⟩, fun _ => rfl⟩

theorem cells_eq (data : v.data = some s) : v.cells = .ok s := by rw [cells, data]

variable {arg : Source α}

/-- A reference that is not dangling denotes an element of the sequence. -/
theorem deref_eq (h : Holds T w xs) (data : w.data = some s) {storage : ℕ}
    (denote : arg.denote xs = some x) (kept : ∀ index, arg = .own index → w.storage = storage) :
    w.deref storage arg = .ok x := by
  cases arg with
  | value y => obtain rfl := some.inj denote; rfl
  | own index =>
    obtain ⟨inside, rfl⟩ := List.getElem?_eq_some_iff.mp denote
    rw [deref, if_pos (kept index rfl), cells_eq data]
    exact (h.slots s data).1.read_eq inside

theorem append_ends (h : Holds T w xs) (data : w.data = some s) (room : xs.length < s.length) (x : α) :
    Ends (fun u => Holds T u (xs ++ [x]) ∧
      ∃ s', u.data = some s' ∧ s'.length = s.length) (w.append x) := by
  obtain ⟨held, whole, minimum⟩ := h.slots s data
  unfold append
  rw [cells_eq data, h.size]
  simp only [bind, Except.bind, held.construct_eq room]
  refine ⟨holds_some ?_ (held.append room x) ?_ minimum, _, rfl, length_set⟩
  · rw [List.length_append, length_singleton]
  · rw [length_set, whole]

theorem pushBack_ends (h : Holds T v xs) (arg : Source α) (denote : arg.denote xs = some x)
    (spared : arg.Spared v) : Ends (Holds T · (xs ++ [x])) (v.pushBack T arg) := by
  refine Loop.Post.bind (grow_ends h) ?_
  rintro w ⟨held, ⟨s, data, room⟩, same⟩
  rw [deref_eq held data denote fun index own => same (spared index own)]
  exact (append_ends held data room x).mono fun u => And.left

theorem moveOut_ends (h : Holds T w (xs ++ [x])) (data : w.data = some s)
    (denote : arg.denote xs = some x) :
    Ends (Holds T · (arg.leave T xs ++ [x])) (w.moveOut T x arg) := by
  cases arg with
  | value y => exact h
  | own index =>
    obtain ⟨inside, rfl⟩ := List.getElem?_eq_some_iff.mp denote
    obtain ⟨held, whole, minimum⟩ := h.slots s data
    have inside' : index < (xs ++ [xs[index]]).length := by rw [List.length_append]; omega
    have here : s.obj index = some xs[index] := by
      rw [held.obj, getElem?_append_left inside, getElem?_eq_getElem inside]
    unfold moveOut
    rw [cells_eq data]
    simp only [bind, Except.bind, assign_eq (inside'.trans_le held.fits) here]
    have result := held.set inside' (T.movedFrom xs[index])
    rw [set_append_left _ _ inside] at result
    rw [Source.leave, modify_eq_set_get _ inside]
    refine holds_some ?_ result (by rw [length_set, whole]) minimum
    rw [h.size, List.length_append, List.length_append, length_set]

theorem pushBackMove_ends (h : Holds T v xs) (denote : arg.denote xs = some x)
    (spared : arg.Spared v) : Ends (Holds T · (arg.leave T xs ++ [x])) (v.pushBackMove T arg) := by
  refine Loop.Post.bind (grow_ends h) ?_
  rintro w ⟨held, ⟨s, data, room⟩, same⟩
  rw [deref_eq held data denote fun index own => same (spared index own)]
  change Ends _ (w.append x >>= fun u => u.moveOut T x arg)
  refine Loop.Post.bind (append_ends held data room x) ?_
  rintro u ⟨held', s', data', -⟩
  exact moveOut_ends held' data' denote

theorem emplaceBack_ends (h : Holds T v xs) {args : List (Source α)} {values : List α}
    (denote : args.mapM (Source.denote xs) = some values) (make : List α → α)
    (spared : ∀ arg ∈ args, arg.Spared v) :
    Ends (Holds T · (xs ++ [make values])) (v.emplaceBack T args make) := by
  refine Loop.Post.bind (grow_ends h) ?_
  rintro w ⟨held, ⟨s, data, room⟩, same⟩
  have derefs : args.mapM (w.deref v.storage) = .ok values := by
    induction args generalizing values with
    | nil => obtain rfl := some.inj denote; rfl
    | cons arg args ih =>
      rw [mapM_cons] at denote ⊢
      obtain ⟨x, first, rest⟩ := bind_eq_some_iff.mp denote
      obtain ⟨values', others, all⟩ := bind_eq_some_iff.mp rest
      cases all
      rw [deref_eq held data first fun index own => same (spared arg mem_cons_self index own),
        ih others fun arg mem => spared arg (mem_cons_of_mem _ mem)]
      rfl
  rw [derefs]
  exact (append_ends held data room (make values)).mono fun u => And.left

theorem destroyRange_ends (h : s.Holds xs) {lo : ℕ} (le : lo ≤ xs.length) :
    Ends (fun s' => s'.Holds (xs.take lo) ∧ s'.length = s.length) (destroyRange lo xs.length s) := by
  have fits := h.fits
  refine (forRange_post (I := fun i s' => s'.length = s.length ∧
      ∀ j, obj s' j = if lo ≤ j ∧ j < i then none else xs[j]?) le ?_ ⟨rfl, fun j => ?_⟩).mono ?_
  · rintro i s' lower upper ⟨length, objs⟩
    have here : obj s' i = some xs[i] := by
      rw [objs, if_neg (by omega), getElem?_eq_getElem upper]
    rw [destroy_eq (by omega) here]
    refine ⟨by rw [length_set, length], fun j => ?_⟩
    rw [obj_set (by omega), objs]
    split_ifs <;> first | rfl | omega
  · rw [if_neg (by omega), h.obj]
  · rintro s' ⟨length, objs⟩
    refine ⟨⟨by rw [length_take]; omega, fun j => ?_⟩, length⟩
    rw [objs, getElem?_take]
    split_ifs with gone kept kept
    · omega
    · rfl
    · rfl
    · exact getElem?_eq_none (by omega)

theorem clear_ends (h : Holds T v xs) : Ends (Holds T · []) v.clear := by
  unfold clear
  cases data : v.data with
  | none =>
    obtain ⟨-, rfl⟩ := h.null data
    exact h
  | some s =>
    obtain ⟨held, whole, minimum⟩ := h.slots s data
    rw [h.size]
    refine Loop.Post.bind (destroyRange_ends held (Nat.zero_le _)) ?_
    rintro s' ⟨held', length⟩
    exact holds_some rfl held' (length.trans whole) minimum

theorem destroy_ends (h : Holds T v xs) : Ends (fun _ => True) v.destroy := by
  unfold destroy
  cases data : v.data with
  | none => trivial
  | some s =>
    obtain ⟨held, -, -⟩ := h.slots s data
    rw [h.size]
    refine Loop.Post.bind (destroyRange_ends held (Nat.zero_le _)) ?_
    rintro s' ⟨held', -⟩
    rw [held'.release_eq]
    trivial

theorem shift_eq {i : ℕ} (inside : i + 1 < s.length) (here : s.obj (i + 1) = some x)
    (free : s.obj i = none) :
    (do let x ← s.read (i + 1)
        let s ← s.construct i x
        let s ← s.assign (i + 1) (T.movedFrom x)
        s.destroy (i + 1)) = .ok ((s.set i (some x)).set (i + 1) none) := by
  have inside' : i + 1 < (s.set i (some x)).length := by rwa [length_set]
  have here' : obj (s.set i (some x)) (i + 1) = some x := by
    rw [obj_set (by omega), if_neg (by omega), here]
  have inside'' : i + 1 < ((s.set i (some x)).set (i + 1) (some (T.movedFrom x))).length := by
    rwa [length_set]
  have here'' : obj ((s.set i (some x)).set (i + 1) (some (T.movedFrom x))) (i + 1) =
      some (T.movedFrom x) := by
    rw [obj_set inside', if_pos rfl]
  simp only [bind, Except.bind, read_eq inside here, construct_eq (by omega) free,
    assign_eq inside' here', destroy_eq inside'' here'', set_set]

theorem erase_ends (h : Holds T v xs) {index : ℕ} (lt : index < xs.length) :
    Ends (Holds T · (xs.eraseIdx index)) (v.erase T index) := by
  obtain ⟨s, data⟩ := exists_data h (.inr (by omega))
  obtain ⟨held, whole, minimum⟩ := h.slots s data
  have fits := held.fits
  have here : s.obj index = some xs[index] := by rw [held.obj, getElem?_eq_getElem lt]
  unfold erase
  rw [cells_eq data]
  simp only [bind, Except.bind, destroy_eq (lt.trans_le fits) here]
  -- before turn `del` the slot `del` is empty, and the elements up to it are in place
  refine Loop.Post.bind (P := fun s' => s'.length = s.length ∧ ∀ j, obj s' j =
      if j < v.size - 1 then (xs.eraseIdx index)[j]? else if j = v.size - 1 then none else xs[j]?)
    (forRange_post (I := fun del s' => s'.length = s.length ∧ ∀ j, obj s' j =
      if j < del then (xs.eraseIdx index)[j]? else if j = del then none else xs[j]?) ?_ ?_ ?_) ?_
  · have := h.size
    omega
  · rintro i s' lower upper ⟨length, objs⟩
    have size := h.size
    have next : obj s' (i + 1) = some xs[i + 1] := by
      rw [objs, if_neg (by omega), if_neg (by omega), getElem?_eq_getElem]
    have free : obj s' i = none := by rw [objs, if_neg (by omega), if_pos rfl]
    have turn := shift_eq (T := T) (by omega) next free
    simp only [bind, Except.bind] at turn
    rw [turn]
    refine ⟨by rw [length_set, length_set, length], fun j => ?_⟩
    rw [obj_set (by rw [length_set]; omega), obj_set (by omega), objs]
    by_cases moved : j = i
    · rw [if_neg (by omega), if_pos moved, if_pos (by omega), moved, getElem?_eraseIdx,
        if_neg (by omega), getElem?_eq_getElem]
    · split_ifs <;> first | rfl | omega
  · refine ⟨by rw [length_set], fun j => ?_⟩
    rw [obj_set (lt.trans_le fits), held.obj, getElem?_eraseIdx]
    split_ifs <;> first | rfl | omega
  · rintro s' ⟨length, objs⟩
    have size := h.size
    refine holds_some ?_ ⟨?_, fun j => ?_⟩ (length.trans whole) minimum
    · rw [length_eraseIdx, if_pos lt, size]
    · rw [length_eraseIdx, if_pos lt, length]
      omega
    · rw [objs]
      have past : xs.length - 1 ≤ j → (xs.eraseIdx index)[j]? = none := fun le =>
        getElem?_eq_none (by rw [length_eraseIdx, if_pos lt]; exact le)
      split_ifs with before last
      · rfl
      · rw [past (by omega)]
      · rw [past (by omega), getElem?_eq_none (by omega)]

theorem ensure_ends (h : Holds T v xs) (n : ℕ) :
    Ends (fun w => Holds T w xs ∧ n ≤ w.capacity) (v.ensure T n) := by
  unfold ensure
  split_ifs with more
  · exact (reserve_ends h n).mono fun w held => ⟨held.1, held.2.1⟩
  · exact ⟨h, not_lt.mp more⟩

theorem resize_ends (h : Holds T v xs) {sz : ℕ} (le : xs.length ≤ sz) :
    Ends (Holds T · (xs ++ replicate (sz - xs.length) T.default)) (v.resize T sz) := by
  refine Loop.Post.bind (ensure_ends h sz) ?_
  rintro w ⟨held, capacity⟩
  by_cases more : w.size < sz
  · rw [if_pos more]
    obtain ⟨s, data⟩ := exists_data held (.inl (by omega))
    obtain ⟨objs, whole, minimum⟩ := held.slots s data
    rw [cells_eq data, held.size]
    change Ends _ (forRange _ _ _ s >>= _)
    refine Loop.Post.bind (forRange_post (I := fun i (s' : Slots α) => s'.length = s.length ∧
      s'.Holds (xs ++ replicate (i - xs.length) T.default)) le ?_ ⟨rfl, ?_⟩) ?_
    · rintro i s' lower upper ⟨length, filled⟩
      have here : (xs ++ replicate (i - xs.length) T.default).length = i := by
        rw [List.length_append, length_replicate]
        omega
      have construct := filled.construct_eq (x := T.default) (by omega)
      have appended := filled.append (by omega) T.default
      rw [here] at construct appended
      rw [construct]
      refine ⟨by rw [length_set, length], ?_⟩
      rwa [append_assoc, ← replicate_succ', ← Nat.sub_add_comm lower] at appended
    · rwa [Nat.sub_self, replicate_zero, append_nil]
    · rintro s' ⟨length, filled⟩
      refine holds_some ?_ filled (length.trans whole) minimum
      rw [List.length_append, length_replicate]
      omega
  · have size := held.size
    rw [if_neg more, if_neg (by omega), show sz - xs.length = 0 by omega, replicate_zero,
      append_nil]
    exact held

theorem pushAll_ends (h : Holds T v xs) (from_ : Holds T w ys) :
    Ends (Holds T · (xs ++ ys)) (v.pushAll T w) := by
  have pushed : Ends (Holds T · (xs ++ ys.take w.size)) (v.pushAll T w) := by
    refine forRange_post (I := fun i u => Holds T u (xs ++ ys.take i)) (Nat.zero_le _) ?_ ?_
    · intro i u _ turn held
      rw [from_.size] at turn
      obtain ⟨s, data⟩ := exists_data from_ (.inr (by omega))
      have step := pushBack_ends held (.value ys[i]) rfl fun index own => by cases own
      rw [append_assoc, take_append_getElem turn] at step
      rw [cells_eq data]
      simp only [bind, Except.bind, (from_.slots s data).1.read_eq turn]
      exact step
    · rwa [take_zero, append_nil]
  rwa [from_.size, take_length] at pushed

theorem copy_ends (from_ : Holds T w ys) : Ends (Holds T · ys) (w.copy T) :=
  Loop.Post.bind (reserve_ends holds_empty w.size) fun _ held => pushAll_ends held.1 from_

theorem vacate_ends (h : Holds T v xs) : Ends (Holds T · []) v.vacate := by
  have cleared := clear_ends h
  unfold clear at cleared
  unfold vacate
  cases data : v.data with
  | none =>
    obtain ⟨capacity, rfl⟩ := h.null data
    exact ⟨rfl, fun _ => ⟨capacity, rfl⟩, by simp⟩
  | some s => rwa [data] at cleared

theorem assignCopy_ends (h : Holds T v xs) (from_ : Holds T w ys) :
    Ends (Holds T · ys) (v.assignCopy T w) :=
  Loop.Post.bind (vacate_ends h) fun _ held =>
    Loop.Post.bind (ensure_ends held w.size) fun _ held' => pushAll_ends held'.1 from_

end Vector

/-! ## Whole programs -/

/-- The argument is an object outside the vector or one of its elements. -/
def Source.Valid (v : Vector α) (arg : Source α) : Prop := ∀ index, arg = .own index → index < v.size

/-- What every caller of a vector has to see to: the vectors exist, and indices are inside. -/
def Legal (s : Program α) : Op α → Prop
  | .create => True
  | .pushBack k arg | .pushBackMove k arg => ∃ v, s[k]? = some v ∧ arg.Valid v
  | .emplaceBack k args _ => ∃ v, s[k]? = some v ∧ ∀ arg ∈ args, arg.Valid v
  | .erase k index => ∃ v, s[k]? = some v ∧ index < v.size
  | .resize k _ | .reserve k _ | .clear k | .destroy k => k < s.length
  | .copy from_ | .move from_ => from_ < s.length
  | .assignCopy k from_ | .assignMove k from_ => k < s.length ∧ from_ < s.length

/-- No vector gets smaller by `resize`, and a reference to an own element is not passed to a vector
that has to replace its storage. -/
def Spared (s : Program α) : Op α → Prop
  | .pushBack k arg | .pushBackMove k arg => ∀ v, s[k]? = some v → arg.Spared v
  | .emplaceBack k args _ => ∀ v, s[k]? = some v → ∀ arg ∈ args, arg.Spared v
  | .resize k sz => ∀ v, s[k]? = some v → v.size ≤ sz
  | _ => True

structure Shows (v : Vector α) (xs : List α) : Prop where
  size : v.size = xs.length
  elements : ∀ i (inside : i < xs.length), v.elementAt i = .ok xs[i]
  iterate : v.iterate = .ok xs
  live : v.live = v.size

abbrev Represents (T : ElementType α) (s : Program α) (xss : List (List α)) : Prop :=
  Forall₂ (Holds T) s xss

variable {v : Vector α} {xs : List α}

theorem Holds.shows {T : ElementType α} (h : Holds T v xs) : Shows v xs := by
  have data_of : ∀ {i}, i < xs.length → ∃ s, v.cells = .ok s ∧ s.Holds xs := fun lt => by
    obtain ⟨s, data⟩ := Vector.exists_data h (.inr (Nat.zero_lt_of_lt lt))
    exact ⟨s, Vector.cells_eq data, (h.slots s data).1⟩
  refine ⟨h.size, fun i inside => ?_, ?_, ?_⟩
  · obtain ⟨s, cells, held⟩ := data_of inside
    rw [Vector.elementAt, if_pos (by rwa [h.size]), cells]
    exact held.read_eq inside
  · have seen : Ends (fun seen => seen = xs.take v.size) v.iterate := by
      refine forRange_post (I := fun i seen => seen = xs.take i) (Nat.zero_le _) ?_ rfl
      rintro i seen - turn rfl
      rw [h.size] at turn
      obtain ⟨s, cells, held⟩ := data_of turn
      rw [cells]
      simp only [bind, Except.bind, held.read_eq turn]
      exact take_append_getElem turn
    rw [h.size, take_length] at seen
    obtain ⟨ys, result, rfl⟩ := seen.exists_ok
    exact result
  · rw [h.size, Vector.live]
    cases data : v.data with
    | none => rw [(h.null data).2]; rfl
    | some s => exact (h.slots s data).1.live_eq

namespace Program

variable {T : ElementType α} {s t : Program α} {xss : List (List α)}

theorem holds_emptied : Holds T (emptied v) [] :=
  ⟨rfl, fun _ => ⟨rfl, rfl⟩, by simp [emptied]⟩

theorem update_ends (h : Represents T s xss) {k : ℕ} {f : Vector α → Except Fault (Vector α)}
    {g : List α → Option (List α)} {v : Vector α} (at_v : s[k]? = some v)
    (op : ∀ xs, Holds T v xs → ∃ ys, g xs = some ys ∧ Ends (Holds T · ys) (f v)) :
    ∃ yss, updateList xss k g = some yss ∧ Ends (Represents T · yss) (s.update k f) := by
  obtain ⟨xs, at_xs, held⟩ := getElem?_left h at_v
  obtain ⟨ys, result, ends⟩ := op xs held
  refine ⟨xss.set k ys, ?_, ?_⟩
  · rw [updateList, at_xs, bind_some, result, map_some]
  · rw [update, at_v]
    exact Loop.Post.bind ends fun w held => set_both h held k

theorem denote_of_valid {arg : Source α} (held : Holds T v xs) (valid : arg.Valid v) :
    ∃ x, arg.denote xs = some x := by
  cases arg with
  | value x => exact ⟨x, rfl⟩
  | own index =>
    have inside := valid index rfl
    rw [held.size] at inside
    exact ⟨_, getElem?_eq_getElem inside⟩

theorem mapM_denote_of_valid {args : List (Source α)} (held : Holds T v xs)
    (valid : ∀ arg ∈ args, arg.Valid v) : ∃ values, args.mapM (Source.denote xs) = some values := by
  induction args with
  | nil => exact ⟨[], rfl⟩
  | cons arg args ih =>
    obtain ⟨first, rest⟩ := forall_mem_cons.mp valid
    obtain ⟨x, value⟩ := denote_of_valid held first
    obtain ⟨values, all⟩ := ih rest
    exact ⟨x :: values, by rw [mapM_cons, value, all]; rfl⟩

theorem exec_ends {op : Op α} (h : Represents T s xss) (legal : Legal s op) (spared : Spared s op) :
    ∃ yss, op.apply T xss = some yss ∧ Ends (Represents T · yss) (s.exec T op) := by
  have at_ : ∀ {k}, k < s.length → ∃ v xs, s[k]? = some v ∧ xss[k]? = some xs ∧ Holds T v xs := by
    intro k lt
    obtain ⟨xs, at_xs, held⟩ := getElem?_left h (getElem?_eq_getElem lt)
    exact ⟨_, xs, getElem?_eq_getElem lt, at_xs, held⟩
  cases op with
  | create => exact ⟨_, rfl, List.rel_append h (.cons Vector.holds_empty .nil)⟩
  | pushBack k arg =>
    obtain ⟨v, at_v, valid⟩ := legal
    refine update_ends h at_v fun xs held => ?_
    obtain ⟨x, value⟩ := denote_of_valid held valid
    exact ⟨xs ++ [x], by rw [value, map_some], Vector.pushBack_ends held arg value (spared _ at_v)⟩
  | pushBackMove k arg =>
    obtain ⟨v, at_v, valid⟩ := legal
    refine update_ends h at_v fun xs held => ?_
    obtain ⟨x, value⟩ := denote_of_valid held valid
    exact ⟨arg.leave T xs ++ [x], by rw [value, map_some],
      Vector.pushBackMove_ends held value (spared _ at_v)⟩
  | emplaceBack k args make =>
    obtain ⟨v, at_v, valid⟩ := legal
    refine update_ends h at_v fun xs held => ?_
    obtain ⟨values, all⟩ := mapM_denote_of_valid held valid
    exact ⟨xs ++ [make values], by rw [all, map_some],
      Vector.emplaceBack_ends held all make (spared _ at_v)⟩
  | erase k index =>
    obtain ⟨v, at_v, inside⟩ := legal
    refine update_ends h at_v fun xs held => ?_
    rw [held.size] at inside
    exact ⟨xs.eraseIdx index, by rw [if_pos inside], Vector.erase_ends held inside⟩
  | resize k sz =>
    have at_v := getElem?_eq_getElem legal
    refine update_ends h at_v fun xs held => ?_
    have le := spared _ at_v
    rw [held.size] at le
    refine ⟨_, rfl, ?_⟩
    rw [take_of_length_le le]
    exact Vector.resize_ends held le
  | reserve k n =>
    exact update_ends h (getElem?_eq_getElem legal) fun xs held =>
      ⟨xs, rfl, (Vector.reserve_ends held n).mono fun _ => And.left⟩
  | clear k =>
    exact update_ends h (getElem?_eq_getElem legal) fun xs held => ⟨[], rfl, Vector.clear_ends held⟩
  | copy from_ =>
    obtain ⟨v, xs, at_v, at_xs, held⟩ := at_ legal
    refine ⟨xss ++ [xs], by rw [Op.apply, at_xs, map_some], ?_⟩
    rw [exec, at_v]
    exact Loop.Post.bind (Vector.copy_ends held) fun w held' => List.rel_append h (.cons held' .nil)
  | move from_ =>
    obtain ⟨v, xs, at_v, at_xs, held⟩ := at_ legal
    refine ⟨xss.set from_ [] ++ [xs], by rw [Op.apply, at_xs, map_some], ?_⟩
    rw [exec, at_v]
    exact List.rel_append (set_both h holds_emptied from_) (.cons held .nil)
  | assignCopy k from_ =>
    obtain ⟨cp, ys, at_cp, at_ys, held'⟩ := at_ legal.2
    rw [Op.apply, at_ys, exec, bind_some]
    by_cases same : k = from_
    · subst same
      refine ⟨xss, ?_, by rw [if_pos rfl]; exact h⟩
      obtain ⟨inside, rfl⟩ := List.getElem?_eq_some_iff.mp at_ys
      rw [updateList, at_ys, bind_some, map_some, List.set_getElem_self]
    · rw [if_neg same, at_cp]
      exact update_ends h (getElem?_eq_getElem legal.1) fun xs held =>
        ⟨ys, rfl, Vector.assignCopy_ends held held'⟩
  | assignMove k from_ =>
    obtain ⟨mv, ys, at_mv, at_ys, held'⟩ := at_ legal.2
    rw [Op.apply, exec]
    by_cases same : k = from_
    · rw [if_pos same, if_pos same]
      exact ⟨xss, rfl, h⟩
    · rw [if_neg same, if_neg same, at_mv, at_ys, bind_some]
      obtain ⟨yss, replaced, ends⟩ := update_ends h (getElem?_eq_getElem legal.1)
        (f := fun v => do v.destroy; return mv) (g := fun _ => some ys)
        fun xs held => ⟨ys, rfl, Loop.Post.bind (Vector.destroy_ends held) fun _ _ => held'⟩
      refine ⟨yss.set from_ [], by rw [replaced, map_some], ?_⟩
      exact Loop.Post.bind ends fun u related => set_both related holds_emptied from_
  | destroy k =>
    obtain ⟨v, xs, at_v, at_xs, held⟩ := at_ legal
    refine ⟨xss.eraseIdx k, by rw [Op.apply, at_xs, map_some], ?_⟩
    rw [exec, at_v]
    exact Loop.Post.bind (Vector.destroy_ends held) fun _ _ => eraseIdx_both h k

def step (T : ElementType α) (s : Program α) (op : Op α) : Option (Program α) := (s.exec T op).toOption

def Refines (T : ElementType α) (ops : List (Op α)) (s : Program α) : Prop :=
  ∃ xss, ops.foldlM (Op.apply T) [] = some xss ∧ Forall₂ Shows s xss

theorem represents_run {ops : List (Op α)} (h : Represents T s xss)
    (run : Machine.RunWhen (fun s op => Legal s op ∧ Spared s op) (step T) s ops t) :
    ∃ yss, ops.foldlM (Op.apply T) xss = some yss ∧ Represents T t yss := by
  induction run generalizing xss with
  | nil => exact ⟨xss, rfl, h⟩
  | @cons s u t op ops allowed taken _ ih =>
    obtain ⟨yss, applied, ends⟩ := exec_ends h allowed.1 allowed.2
    obtain ⟨u', result, related⟩ := ends.exists_ok
    rw [step, result] at taken
    cases taken
    obtain ⟨zss, rest, final⟩ := ih related
    exact ⟨zss, by rw [foldlM_cons, applied]; exact rest, final⟩

/-- If no `resize` makes a vector smaller and no reference to an own element is passed to a vector
without room, the vectors are those lists, and the next such operation meets no fault. -/
theorem refines_of_spared {ops : List (Op α)}
    (run : Machine.RunWhen (fun s op => Legal s op ∧ Spared s op) (step T) [] ops s) :
    Refines T ops s ∧ ∀ op, Legal s op → Spared s op → ∃ t, s.exec T op = .ok t := by
  obtain ⟨xss, applied, related⟩ := represents_run (T := T) (s := []) .nil run
  refine ⟨⟨xss, applied, related.imp fun _ _ => Holds.shows⟩, fun op legal spared => ?_⟩
  obtain ⟨yss, -, ends⟩ := exec_ends related legal spared
  obtain ⟨t, result, -⟩ := ends.exists_ok
  exact ⟨t, result⟩

def words : ElementType ℕ := ⟨8, 0, fun _ => 0⟩

/-- An element is pushed a second time, by reference, and the first one is erased. -/
theorem refines_own_element :
    ∃ s, Machine.RunWhen (fun s op => Legal s op ∧ Spared s op) (step words) []
      [.create, .pushBack 0 (.value 5), .pushBack 0 (.own 0), .erase 0 0] s ∧
      Refines words [.create, .pushBack 0 (.value 5), .pushBack 0 (.own 0), .erase 0 0] s := by
  refine Machine.RunWhen.reaches (t := [⟨some [some 5, none], 1, 2, 1⟩])
    (.cons ⟨trivial, trivial⟩ rfl (.cons ⟨⟨_, rfl, fun _ own => ?_⟩, fun _ _ _ own => ?_⟩ rfl
      (.cons ⟨⟨_, rfl, fun _ own => ?_⟩, fun v at_v _ _ => ?_⟩ rfl
        (.cons ⟨⟨_, rfl, by decide⟩, trivial⟩ rfl (.nil _))))) fun run => (refines_of_spared run).1
  · cases own
  · cases own
  · cases own
    decide
  · cases at_v
    decide

/-- After `resize(1)` a vector of two elements still has the size 2, and `push_back` of an own element
of a full vector reads storage that was released. -/
theorem not_refines_resized :
    (∃ s, Machine.RunWhen Legal (step words) [] [.create, .resize 0 2, .resize 0 1] s ∧
      ¬Refines words [.create, .resize 0 2, .resize 0 1] s) ∧
    ∃ s, Machine.RunWhen Legal (step words) [] [.create, .resize 0 2] s ∧
      Legal s (.pushBack 0 (.own 0)) ∧ s.exec words (.pushBack 0 (.own 0)) = .error .dangling := by
  refine ⟨⟨[⟨some [some 0, none], 2, 2, 1⟩], .cons trivial rfl (.cons Nat.one_pos rfl
    (.cons Nat.one_pos rfl (.nil _))), ?_⟩, [⟨some [some 0, some 0], 2, 2, 1⟩],
    .cons trivial rfl (.cons Nat.one_pos rfl (.nil _)), ⟨_, rfl, fun _ own => ?_⟩, rfl⟩
  · rintro ⟨xss, applied, shown⟩
    cases applied
    obtain ⟨⟨size, -⟩, -⟩ := forall₂_cons.mp shown
    cases size
  · cases own
    decide

end Program

end JeoKernel.Vec
