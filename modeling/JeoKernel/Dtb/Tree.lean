import JeoKernel.Lib.Bytes

/-!
# Flattened device trees

The format of the Devicetree Specification, as a relation between the bytes in memory and the tree they
hold, and the memory layout that a tree describes.  A tree is a list of sibling nodes, each with its
properties and its own children; the root is a node with an empty name.
-/

namespace JeoKernel.Dtb

open Record

/-! ## Trees -/

structure Property where
  name : List UInt8
  value : List UInt8
  deriving DecidableEq

inductive Nodes where
  | nil
  | node (name : List UInt8) (props : List Property) (children next : Nodes)
  deriving DecidableEq

structure Tree where
  props : List Property
  children : Nodes

def Tree.root (t : Tree) : Nodes := .node [] t.props t.children .nil

def ascii (s : String) : List UInt8 := s.toList.map fun c => UInt8.ofNat c.toNat

def lookup (props : List Property) (name : String) : Option (List UInt8) :=
  (props.find? (·.name = ascii name)).map (·.value)

/-- Names are unique in each node, and a `device_type` is a string. -/
def Nodes.Ok : Nodes → Prop
  | .nil => True
  | .node _ props children next => (props.map (·.name)).Nodup ∧
      (∀ p ∈ props, p.name = ascii "device_type" → ∃ text, 0 ∉ text ∧ p.value = text ++ [0]) ∧
      children.Ok ∧ next.Ok

/-! ## The memory layout -/

structure Region where
  base : ℕ
  size : ℕ
  deriving DecidableEq

/-- The numbers of cells of the addresses and sizes in the children of a node. -/
structure Cells where
  address : ℕ
  size : ℕ
  deriving DecidableEq

def cellsOf (props : List Property) : Cells where
  address := ((lookup props "#address-cells").map beValue).getD 2
  size := ((lookup props "#size-cells").map beValue).getD 1

def Cells.entry (c : Cells) : ℕ := 4 * (c.address + c.size)

def Cells.pair (c : Cells) (reg : List UInt8) (i : ℕ) : Region where
  base := beValue ((reg.drop (c.entry * i)).take (4 * c.address))
  size := beValue ((reg.drop (c.entry * i + 4 * c.address)).take (4 * c.size))

/-- The pairs of a `reg` property with a size that is not zero. -/
def Cells.pairs (c : Cells) (reg : List UInt8) : List Region :=
  ((List.range (reg.length / c.entry)).map (c.pair reg)).filter (0 < ·.size)

def isMemory (name : List UInt8) (props : List Property) : Bool :=
  (ascii "memory@").isPrefixOf name || name = ascii "memory" ||
    lookup props "device_type" = some (ascii "memory" ++ [0])

def regPairs (c : Cells) (props : List Property) : List Region :=
  ((lookup props "reg").map c.pairs).getD []

def memoryPairs (c : Cells) (name : List UInt8) (props : List Property) : List Region :=
  if isMemory name props then regPairs c props else []

def Nodes.memory (c : Cells) : Nodes → List Region
  | .nil => []
  | .node name props _ next => memoryPairs c name props ++ next.memory c

def Tree.memoryBanks (t : Tree) : List Region := t.children.memory (cellsOf t.props)

def Nodes.regions (c : Cells) : Nodes → List Region
  | .nil => []
  | .node _ props _ next => regPairs c props ++ next.regions c

def Nodes.reserved : Nodes → List Region
  | .nil => []
  | .node name props children next =>
    (if name = ascii "reserved-memory" then children.regions (cellsOf props) else []) ++ next.reserved

def Tree.reservedMemory (t : Tree) : List Region := t.children.reserved

/-! ## Bytes -/

def word (mem : Buffer) (p : ℕ) : ℕ := beValue (mem.read p 4)

def Text (mem : Buffer) (p : ℕ) (s : List UInt8) : Prop := mem.read p (s.length + 1) = s ++ [0] ∧ 0 ∉ s

def aligned (p : ℕ) : ℕ := (p + 3) / 4 * 4

inductive PropsAt (mem : Buffer) (strings : ℕ) : ℕ → List Property → ℕ → Prop
  | nil (p : ℕ) : PropsAt mem strings p [] p
  | nop {p q props} : word mem p = 4 → PropsAt mem strings (p + 4) props q →
      PropsAt mem strings p props q
  | prop {p q x props} : word mem p = 3 →
      word mem (p + 4) = x.value.length → Text mem (strings + word mem (p + 8)) x.name →
      mem.read (p + 12) x.value.length = x.value →
      PropsAt mem strings (aligned (p + 12 + x.value.length)) props q →
      PropsAt mem strings p (x :: props) q

inductive NodesAt (mem : Buffer) (strings : ℕ) : ℕ → Nodes → ℕ → Prop
  | nil (p : ℕ) : NodesAt mem strings p .nil p
  | nop {p q nodes} : word mem p = 4 → NodesAt mem strings (p + 4) nodes q →
      NodesAt mem strings p nodes q
  | node {p q r s name props children next} : word mem p = 1 → Text mem (p + 4) name →
      PropsAt mem strings (aligned (p + 4 + name.length + 1)) props r →
      NodesAt mem strings r children s → word mem s = 2 → NodesAt mem strings (s + 4) next q →
      NodesAt mem strings p (.node name props children next) q

/-- The memory reservation block, with its end. -/
inductive ReservationsAt (mem : Buffer) (limit : ℕ) : ℕ → List Region → Prop
  | stop {p} : p + 16 ≤ limit → beValue (mem.read p 8) = 0 → beValue (mem.read (p + 8) 8) = 0 →
      ReservationsAt mem limit p []
  | entry {p x rest} : p + 16 ≤ limit →
      beValue (mem.read p 8) = x.base → beValue (mem.read (p + 8) 8) = x.size →
      ¬(x.base = 0 ∧ x.size = 0) → ReservationsAt mem limit (p + 16) rest →
      ReservationsAt mem limit p (x :: rest)

/-- The memory at `blob` holds a flattened tree of `total` bytes with the given reservations. -/
structure Flattened (mem : Buffer) (blob total : ℕ) (t : Tree) (reservations : List Region) :
    Prop where
  nonnull : blob ≠ 0
  blob_aligned : blob % 8 = 0
  magic : word mem blob = 0xd00dfeed
  totalsize : word mem (blob + 4) = total
  structure_aligned : word mem (blob + 8) % 4 = 0
  root : ∃ q, NodesAt mem (blob + word mem (blob + 12)) (blob + word mem (blob + 8)) t.root q ∧
    word mem q = 9 ∧ q + 4 ≤ blob + total
  reservations : ReservationsAt mem (blob + total) (blob + word mem (blob + 16)) reservations
  ok : t.root.Ok
  address_cells : ∀ p ∈ t.props, p.name = ascii "#address-cells" →
    p.value.length = 4 ∧ (beValue p.value = 1 ∨ beValue p.value = 2)
  size_cells : ∀ p ∈ t.props, p.name = ascii "#size-cells" →
    p.value.length = 4 ∧ (beValue p.value = 1 ∨ beValue p.value = 2)

end JeoKernel.Dtb
