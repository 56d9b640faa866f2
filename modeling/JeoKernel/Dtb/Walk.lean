import JeoKernel.Dtb.Tree
import JeoKernel.Lib.Fuel

/-!
# The walk over a device tree in `dtb.cpp`

`get_memory_banks` and `get_reserved_regions` go through the tokens of the structure block in the same
way and differ in what they do with a token.  Addresses are natural numbers; the ends of strings are
looked for without a bound, so the walk is run with fuel.
-/

namespace JeoKernel.Dtb

open List Record Fuel Buffer

def wrap32 (n : ℕ) : ℕ := n % 2 ^ 32

/-! ## Reading -/

def be32 (mem : Buffer) (p : ℕ) : ℕ :=
  (mem p).toNat * 2 ^ 24 + (mem (p + 1)).toNat * 2 ^ 16 + (mem (p + 2)).toNat * 2 ^ 8 +
    (mem (p + 3)).toNat

def cellsLoop (mem : Buffer) : ℕ → ℕ → ℕ → ℕ
  | 0, _, v => v
  | n + 1, p, v => cellsLoop mem n (p + 4) (v <<< 32 % 2 ^ 64 ||| be32 mem p)

def readCells (mem : Buffer) (p cells : ℕ) : ℕ := cellsLoop mem cells p 0

def streq (mem : Buffer) (a : ℕ) : List UInt8 → Bool
  | [] => mem a = 0
  | c :: cs => mem a = c && streq mem (a + 1) cs

def strstarts (mem : Buffer) (str : ℕ) : List UInt8 → Bool
  | [] => true
  | c :: cs => mem str = c && strstarts mem (str + 1) cs

def align4 (p : ℕ) : ℕ := (p + 3) / 4 * 4

def stringEnd (mem : Buffer) : ℕ → ℕ → Option ℕ
  | 0, _ => none
  | fuel + 1, p => if mem p = 0 then some p else stringEnd mem fuel (p + 1)

/-! ## Tokens -/

inductive Token where
  | fdtEnd
  | nop
  | beginNode (nodename : ℕ)
  | endNode
  | prop (len name val : ℕ)
  | unknown
  deriving DecidableEq

def token (mem : Buffer) (strings fuel p : ℕ) : Option (Token × ℕ) :=
  let tok := be32 mem p
  let p := p + 4
  if tok = 0x9 then some (.fdtEnd, p)
  else if tok = 0x4 then some (.nop, p)
  else if tok = 0x1 then
    (stringEnd mem fuel p).map fun last => (.beginNode p, align4 (last + 1))
  else if tok = 0x2 then some (.endNode, p)
  else if tok = 0x3 then
    let len := be32 mem p
    some (.prop len (strings + be32 mem (p + 4)) (p + 8), align4 (p + 8 + len))
  else some (.unknown, p)

def walk {σ : Type} (turn : ℕ → σ → Token → Option σ) (mem : Buffer) (strings : ℕ) :
    ℕ → ℕ → σ → Option σ
  | 0, _, _ => none
  | fuel + 1, p, s => (token mem strings fuel p).bind fun tp =>
    match tp.1 with
    | .fdtEnd | .unknown => some s
    | .nop => walk turn mem strings fuel tp.2 s
    | .beginNode nodename =>
      (turn fuel s (.beginNode nodename)).bind fun s => walk turn mem strings fuel tp.2 s
    | .endNode => (turn fuel s .endNode).bind fun s => walk turn mem strings fuel tp.2 s
    | .prop len name val =>
      (turn fuel s (.prop len name val)).bind fun s => walk turn mem strings fuel tp.2 s

/-- The loop over the pairs of a `reg` property from the offset `o` on. -/
def regLoop (mem : Buffer) (reg regLen addrCells sizeCells : ℕ) :
    ℕ → ℕ → List Region → Option (List Region)
  | 0, _, _ => none
  | fuel + 1, o, regions =>
    let entry := wrap32 ((addrCells + sizeCells) * 4)
    if wrap32 (o + entry) ≤ regLen then
      let base := readCells mem (reg + o) addrCells
      let size := readCells mem (reg + o + addrCells * 4) sizeCells
      regLoop mem reg regLen addrCells sizeCells fuel (wrap32 (o + entry))
        (if size > 0 then regions ++ [⟨base, size⟩] else regions)
    else some regions

variable {mem : Buffer} {strings p q : ℕ}

/-! ## Strings -/

variable {bytes : List UInt8}

theorem mem_of_read {b : UInt8} {n : ℕ} (h : mem.read p (n + 1) = b :: bytes) :
    mem p = b ∧ mem.read (p + 1) n = bytes := by
  rw [add_comm n 1, read_add] at h
  simpa [Buffer.read] using h

theorem be32_eq_word (mem : Buffer) (p : ℕ) : be32 mem p = word mem p := by
  simp only [be32, word, Buffer.read, range_succ, range_zero, nil_append,
    cons_append, map_cons, map_nil, beValue, reverse_cons, reverse_nil, leValue, add_zero]
  omega

theorem text_cons {c : UInt8} {s : List UInt8} :
    Text mem p (c :: s) ↔ mem p = c ∧ c ≠ 0 ∧ Text mem (p + 1) s := by
  constructor
  · rintro ⟨bytes, clean⟩
    obtain ⟨first, rest⟩ := mem_of_read bytes
    rw [mem_cons, not_or] at clean
    exact ⟨first, Ne.symm clean.1, rest, clean.2⟩
  · rintro ⟨first, nonzero, rest, clean⟩
    refine ⟨?_, by simp [clean, Ne.symm nonzero]⟩
    rw [length_cons, add_comm (s.length + 1) 1, read_add, rest]
    simp [Buffer.read, first]

theorem text_nil : Text mem p [] ↔ mem p = 0 := by
  simp [Text, Buffer.read]

variable {s lit : List UInt8}

theorem streq_iff (text : Text mem p s) (clean : 0 ∉ lit) : streq mem p lit = decide (s = lit) := by
  induction lit generalizing p s with
  | nil =>
    cases s with
    | nil => simp [streq, text_nil.mp text]
    | cons c s =>
      obtain ⟨first, nonzero, -⟩ := text_cons.mp text
      simp [streq, first, nonzero]
  | cons d lit ih =>
    rw [mem_cons, not_or] at clean
    cases s with
    | nil => simp [streq, text_nil.mp text, clean.1]
    | cons c s =>
      obtain ⟨first, -, rest⟩ := text_cons.mp text
      simp [streq, first, ih rest clean.2]

theorem strstarts_iff (text : Text mem p s) (clean : 0 ∉ lit) :
    strstarts mem p lit = lit.isPrefixOf s := by
  induction lit generalizing p s with
  | nil => simp [strstarts]
  | cons d lit ih =>
    rw [mem_cons, not_or] at clean
    cases s with
    | nil => simp [strstarts, text_nil.mp text, clean.1]
    | cons c s =>
      obtain ⟨first, -, rest⟩ := text_cons.mp text
      rw [strstarts, first, ih rest clean.2, isPrefixOf]
      by_cases same : c = d
      · simp [same]
      · simp [same, Ne.symm same]

theorem stringEnd_settles {s : List UInt8} (text : Text mem p s) :
    Settles (fun fuel => stringEnd mem fuel p) (p + s.length) := by
  induction s generalizing p with
  | nil =>
    refine ⟨1, fun fuel enough => ?_⟩
    obtain ⟨k, rfl⟩ := Nat.exists_eq_add_of_le' enough
    simp [stringEnd, text_nil.mp text]
  | cons c s ih =>
    obtain ⟨first, nonzero, rest⟩ := text_cons.mp text
    have later := ih rest
    rw [add_assoc, add_comm 1] at later
    exact later.succ fun fuel => by rw [stringEnd, first, if_neg nonzero]

/-! ## Tokens in a flattened tree -/

theorem token_nop (tok : word mem p = 4) (fuel : ℕ) :
    token mem strings fuel p = some (.nop, p + 4) := by
  simp [token, be32_eq_word, tok]

theorem token_end (tok : word mem p = 9) (fuel : ℕ) :
    token mem strings fuel p = some (.fdtEnd, p + 4) := by
  simp [token, be32_eq_word, tok]

theorem token_endNode (tok : word mem p = 2) (fuel : ℕ) :
    token mem strings fuel p = some (.endNode, p + 4) := by
  simp [token, be32_eq_word, tok]

theorem token_prop {len nameoff : ℕ} (tok : word mem p = 3) (size : word mem (p + 4) = len)
    (name : word mem (p + 8) = nameoff) (fuel : ℕ) :
    token mem strings fuel p =
      some (.prop len (strings + nameoff) (p + 12), aligned (p + 12 + len)) := by
  simp [token, be32_eq_word, tok, size, name, add_assoc, align4, aligned]

theorem token_beginNode {name : List UInt8} (tok : word mem p = 1) (text : Text mem (p + 4) name) :
    Settles (fun fuel => token mem strings fuel p)
      (.beginNode (p + 4), aligned (p + 4 + name.length + 1)) := by
  have read : ∀ fuel, token mem strings fuel p = (stringEnd mem fuel (p + 4)).map fun last =>
      (Token.beginNode (p + 4), align4 (last + 1)) := by
    simp [token, be32_eq_word, tok]
  simp only [read]
  exact (stringEnd_settles text).map _

section Walk

variable {σ : Type} {turn : ℕ → σ → Token → Option σ} {s s' r : σ}

def Reaches (turn : ℕ → σ → Token → Option σ) (mem : Buffer) (strings p : ℕ) (s : σ) (q : ℕ) (s' : σ) :
    Prop :=
  ∀ r, Settles (fun fuel => walk turn mem strings fuel q s') r →
    Settles (fun fuel => walk turn mem strings fuel p s) r

theorem Reaches.refl : Reaches turn mem strings p s p s := fun _ done => done

theorem Reaches.trans {q' : ℕ} {s'' : σ} (h : Reaches turn mem strings p s q s')
    (h' : Reaches turn mem strings q s' q' s'') : Reaches turn mem strings p s q' s'' :=
  fun r done => h r (h' r done)

theorem reaches_nop (tok : word mem p = 4) : Reaches turn mem strings p s (p + 4) s := by
  intro r done
  refine done.succ fun fuel => ?_
  rw [walk, token_nop tok]
  rfl

/-- What the tokens other than the end and the empty one have in common. -/
def Token.Moves : Token → Prop
  | .beginNode _ | .endNode | .prop .. => True
  | .fdtEnd | .nop | .unknown => False

theorem reaches_token {t : Token} (read : Settles (fun fuel => token mem strings fuel p) (t, q))
    (handled : Settles (fun fuel => turn fuel s t) s') (moves : t.Moves) :
    Reaches turn mem strings p s q s' := by
  intro r done
  have next : Settles (fun fuel => (token mem strings fuel p).bind fun tp =>
      (turn fuel s tp.1).bind fun s => walk turn mem strings fuel tp.2 s) r :=
    read.bind (g := fun fuel tp => (turn fuel s tp.1).bind fun s => walk turn mem strings fuel tp.2 s)
      (handled.bind (g := fun fuel s => walk turn mem strings fuel q s) done)
  obtain ⟨n, all⟩ := read
  obtain ⟨n', all'⟩ := next
  refine ⟨max n n' + 1, fun fuel enough => ?_⟩
  obtain ⟨k, rfl⟩ := Nat.exists_eq_add_of_le' (Nat.le_of_add_left_le enough)
  have here := all k (by omega)
  have rest := all' k (by omega)
  dsimp only at here rest ⊢
  rw [walk, here, Option.bind_some]
  rw [here, Option.bind_some] at rest
  cases t with
  | beginNode nodename | endNode | prop len name val => exact rest
  | fdtEnd | nop | unknown => exact moves.elim

theorem walk_end (tok : word mem p = 9) : Settles (fun fuel => walk turn mem strings fuel p s) s := by
  refine ⟨1, fun fuel enough => ?_⟩
  obtain ⟨k, rfl⟩ := Nat.exists_eq_add_of_le' enough
  dsimp only
  rw [walk, token_end tok]
  rfl

end Walk

/-! ## The pairs of a `reg` property -/

theorem read_take {n k o : ℕ} (h : mem.read p n = bytes) (fits : o + k ≤ n) :
    mem.read (p + o) k = (bytes.drop o).take k := by
  subst h
  obtain ⟨m, rfl⟩ := Nat.exists_eq_add_of_le fits
  rw [add_assoc, read_add, read_add, drop_left' (by simp), take_left' (by simp)]

theorem word_lt (mem : Buffer) (p : ℕ) : word mem p < 4294967296 := by
  have small := beValue_lt (mem.read p 4)
  rw [length_read] at small
  unfold word
  omega

theorem shift_or_word (mem : Buffer) (p : ℕ) :
    word mem p <<< 32 ||| word mem (p + 4) = beValue (mem.read p 8) := by
  rw [← Nat.shiftLeft_add_eq_or_of_lt (word_lt mem (p + 4)), show 8 = 4 + 4 by rfl, read_add,
    beValue_append, length_read, ← word, ← word, Nat.shiftLeft_eq]
  omega

theorem readCells_eq {cells : ℕ} (small : cells = 1 ∨ cells = 2) (p : ℕ) :
    readCells mem p cells = beValue (mem.read p (4 * cells)) := by
  have one : ∀ p, 0 <<< 32 % 2 ^ 64 ||| be32 mem p = word mem p := fun p => by
    rw [be32_eq_word, Nat.zero_shiftLeft, Nat.zero_mod, Nat.zero_or]
  rcases small with rfl | rfl
  · rw [readCells, cellsLoop, cellsLoop, one, Nat.mul_one, word]
  · have shifted : word mem p <<< 32 % 2 ^ 64 = word mem p <<< 32 := by
      have first := word_lt mem p
      omega
    rw [readCells, cellsLoop, cellsLoop, cellsLoop, one, shifted, be32_eq_word, shift_or_word]

variable {value : List UInt8}

section

variable {c : Cells} (address : c.address = 1 ∨ c.address = 2) (size : c.size = 1 ∨ c.size = 2)
  {reg : ℕ} (holds : mem.read reg value.length = value) (small : value.length + 16 < 2 ^ 32)
include address size holds small

theorem regLoop_settles (k : ℕ) {i : ℕ} (left : i + k = value.length / c.entry)
    (regions : List Region) :
    Settles (fun fuel => regLoop mem reg value.length c.address c.size fuel (c.entry * i) regions)
      (regions ++ (((range' i k).map (c.pair value)).filter (0 < ·.size))) := by
  have entry : wrap32 ((c.address + c.size) * 4) = c.entry := by
    unfold wrap32 Cells.entry
    omega
  have positive : 0 < c.entry := by
    unfold Cells.entry
    omega
  have bounded : c.entry ≤ 16 := by
    unfold Cells.entry
    omega
  have most : c.entry * (value.length / c.entry) ≤ value.length := Nat.mul_div_le _ _
  have step : c.entry * i + c.entry = c.entry * (i + 1) := by ring
  induction k generalizing i regions with
  | zero =>
    have last := Nat.lt_mul_div_succ value.length positive
    rw [← left, add_zero, ← step] at last
    have here : c.entry * i ≤ value.length := by
      rw [← left, add_zero] at most
      exact most
    refine ⟨1, fun fuel enough => ?_⟩
    obtain ⟨n, rfl⟩ := Nat.exists_eq_add_of_le' enough
    dsimp only
    rw [regLoop, entry, if_neg (by unfold wrap32; omega)]
    simp
  | succ k ih =>
    have inside : c.entry * (i + 1) ≤ value.length :=
      (Nat.mul_le_mul_left _ (by omega)).trans most
    have next : wrap32 (c.entry * i + c.entry) = c.entry * (i + 1) := by
      unfold wrap32
      omega
    have four : c.address * 4 = 4 * c.address := mul_comm _ _
    have split : c.entry = 4 * c.address + 4 * c.size := by
      unfold Cells.entry
      ring
    have base : readCells mem (reg + c.entry * i) c.address = (c.pair value i).base := by
      rw [readCells_eq address, read_take holds (by omega)]
      rfl
    have extent : readCells mem (reg + c.entry * i + c.address * 4) c.size =
        (c.pair value i).size := by
      rw [readCells_eq size, four, add_assoc, read_take holds (by omega)]
      rfl
    have result : (if (c.pair value i).size > 0 then regions ++ [c.pair value i] else regions) ++
        ((range' (i + 1) k).map (c.pair value)).filter (0 < ·.size) =
          regions ++ ((range' i (k + 1)).map (c.pair value)).filter (0 < ·.size) := by
      rw [range'_succ, map_cons, filter_cons]
      split_ifs <;> simp_all
    rw [← result]
    refine (ih (i := i + 1) (by omega) _ (by ring)).succ fun fuel => ?_
    rw [regLoop, entry, next, if_pos inside, base, extent]

theorem regLoop_pairs (regions : List Region) :
    Settles (fun fuel => regLoop mem reg value.length c.address c.size fuel 0 regions)
      (regions ++ c.pairs value) := by
  have all := regLoop_settles address size holds small (value.length / c.entry) (i := 0) (by omega)
    regions
  rw [Nat.mul_zero, ← range_eq_range'] at all
  exact all

end

end JeoKernel.Dtb
