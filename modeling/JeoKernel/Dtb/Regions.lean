import JeoKernel.Dtb.Walk

/-!
# Memory banks and reserved regions

`get_memory_banks` and `get_reserved_regions` of `dtb.cpp`.  The nodes they are in are known by a depth
counter and by flags that stand for the current node.
-/

namespace JeoKernel.Dtb

open List Record Fuel Nodes

/-! ## get_memory_banks -/

structure Banks where
  addrCells : ℕ
  sizeCells : ℕ
  depth : ℤ
  isMemory : Bool
  reg : Option ℕ
  regLen : ℕ
  banks : List Region
  deriving DecidableEq

def Banks.start : Banks := ⟨2, 1, 0, false, none, 0, []⟩

def Banks.collect (mem : Buffer) (fuel : ℕ) (s : Banks) : Option (List Region) :=
  match s.isMemory, s.reg with
  | true, some reg => regLoop mem reg s.regLen s.addrCells s.sizeCells fuel 0 s.banks
  | _, _ => some s.banks

def Banks.prop (mem : Buffer) (s : Banks) (len name val : ℕ) : Banks :=
  if s.depth = 1 ∧ streq mem name (ascii "#address-cells") then { s with addrCells := be32 mem val }
  else if s.depth = 1 ∧ streq mem name (ascii "#size-cells") then { s with sizeCells := be32 mem val }
  else if streq mem name (ascii "device_type") ∧ streq mem val (ascii "memory") then
    { s with isMemory := true }
  else if streq mem name (ascii "reg") then { s with reg := some val, regLen := len }
  else s

def Banks.turn (mem : Buffer) (fuel : ℕ) (s : Banks) : Token → Option Banks
  | .beginNode nodename => some { s with
      depth := s.depth + 1
      isMemory := strstarts mem nodename (ascii "memory@") || streq mem nodename (ascii "memory")
      reg := none
      regLen := 0 }
  | .endNode => (s.collect mem fuel).map fun banks =>
      { s with banks, depth := s.depth - 1, isMemory := false, reg := none }
  | .prop len name val => some (s.prop mem len name val)
  | .fdtEnd | .nop | .unknown => some s

def isValid (mem : Buffer) (blob : ℕ) : Bool := blob ≠ 0 && be32 mem blob = 0xd00dfeed

def getMemoryBanks (mem : Buffer) (blob fuel : ℕ) : Option (List Region) :=
  if isValid mem blob then
    let offStruct := be32 mem (blob + 8)
    let offStrings := be32 mem (blob + 12)
    (walk (Banks.turn mem) mem (blob + offStrings) fuel (blob + offStruct) .start).map (·.banks)
  else some []

/-! ## get_reserved_regions -/

structure Reserved where
  rootAddrCells : ℕ
  rootSizeCells : ℕ
  rsvAddrCells : ℕ
  rsvSizeCells : ℕ
  depth : ℤ
  inParent : Bool
  inChild : Bool
  reg : Option ℕ
  regLen : ℕ
  reserved : List Region
  deriving DecidableEq

def Reserved.start (reserved : List Region) : Reserved :=
  ⟨2, 1, 2, 1, 0, false, false, none, 0, reserved⟩

def Reserved.begin (mem : Buffer) (s : Reserved) (nodename : ℕ) : Reserved :=
  let s := { s with depth := s.depth + 1 }
  let s :=
    if s.depth = 1 ∧ (streq mem nodename (ascii "reserved-memory") ∨
        strstarts mem nodename (ascii "reserved-memory@")) then
      { s with inParent := true, rsvAddrCells := s.rootAddrCells, rsvSizeCells := s.rootSizeCells }
    else if s.depth = 2 ∧ s.inParent then { s with inChild := true }
    else s
  { s with reg := none, regLen := 0 }

def Reserved.collect (mem : Buffer) (fuel : ℕ) (s : Reserved) : Option (List Region) :=
  match s.inChild, s.reg with
  | true, some reg => regLoop mem reg s.regLen s.rsvAddrCells s.rsvSizeCells fuel 0 s.reserved
  | _, _ => some s.reserved

def Reserved.leave (s : Reserved) (reserved : List Region) : Reserved :=
  let s := { s with reserved }
  let s :=
    if s.depth = 2 then { s with inChild := false }
    else if s.depth = 1 then { s with inParent := false }
    else s
  { s with depth := s.depth - 1, reg := none }

def Reserved.prop (mem : Buffer) (s : Reserved) (len name val : ℕ) : Reserved :=
  let s :=
    if s.depth = 1 then
      if streq mem name (ascii "#address-cells") then { s with rootAddrCells := be32 mem val }
      else if streq mem name (ascii "#size-cells") then { s with rootSizeCells := be32 mem val }
      else s
    else if s.depth = 2 ∧ s.inParent then
      if streq mem name (ascii "#address-cells") then { s with rsvAddrCells := be32 mem val }
      else if streq mem name (ascii "#size-cells") then { s with rsvSizeCells := be32 mem val }
      else s
    else s
  if s.inChild ∧ streq mem name (ascii "reg") then { s with reg := some val, regLen := len } else s

def Reserved.turn (mem : Buffer) (fuel : ℕ) (s : Reserved) : Token → Option Reserved
  | .beginNode nodename => some (s.begin mem nodename)
  | .endNode => (s.collect mem fuel).map s.leave
  | .prop len name val => some (s.prop mem len name val)
  | .fdtEnd | .nop | .unknown => some s

def reservationLoop (mem : Buffer) (limit : ℕ) : ℕ → ℕ → List Region → Option (List Region)
  | 0, _, _ => none
  | fuel + 1, rsv, reserved =>
    if rsv + 16 ≤ limit then
      let rsvAddr := be32 mem rsv <<< 32 ||| be32 mem (rsv + 4)
      let rsvSize := be32 mem (rsv + 8) <<< 32 ||| be32 mem (rsv + 12)
      if rsvAddr = 0 ∧ rsvSize = 0 then some reserved
      else reservationLoop mem limit fuel (rsv + 16)
        (if rsvSize > 0 then reserved ++ [⟨rsvAddr, rsvSize⟩] else reserved)
    else some reserved

/-- `get_reserved_regions`; `phys` is the answer of `virt_to_phys` for the blob. -/
def getReservedRegions (mem : Buffer) (phys blob fuel : ℕ) : Option (List Region) :=
  if isValid mem blob then
    let totalSize := be32 mem (blob + 4)
    let offStruct := be32 mem (blob + 8)
    let offStrings := be32 mem (blob + 12)
    (reservationLoop mem (blob + totalSize) fuel (blob + be32 mem (blob + 16)) []).bind fun reserved =>
      let reserved :=
        if phys ≠ 0 ∧ totalSize > 0 then reserved ++ [⟨phys, totalSize⟩] else reserved
      (walk (Reserved.turn mem) mem (blob + offStrings) fuel (blob + offStruct)
        (.start reserved)).map (·.reserved)
  else some []

/-! ## What the banks are taken from -/

/-- The pairs of the nodes without children that look like memory nodes, at any depth. -/
def Nodes.leafMemory (c : Cells) : Nodes → List Region
  | .nil => []
  | .node name props children next =>
    (if children = .nil then memoryPairs c name props else children.leafMemory c) ++
      next.leafMemory c

/-- The properties of the current node as the flags see them. -/
structure View where
  cells : Cells
  isMemory : Bool
  reg : Option (List UInt8)

def View.prop (depth : ℤ) (v : View) (x : Property) : View :=
  if depth = 1 ∧ x.name = ascii "#address-cells" then
    { v with cells := { v.cells with address := beValue x.value } }
  else if depth = 1 ∧ x.name = ascii "#size-cells" then
    { v with cells := { v.cells with size := beValue x.value } }
  else if x.name = ascii "device_type" ∧ x.value = ascii "memory" ++ [0] then
    { v with isMemory := true }
  else if x.name = ascii "reg" then { v with reg := some x.value }
  else v

def RegIs (mem : Buffer) (reg : Option ℕ) (regLen : ℕ) : Option (List UInt8) → Prop
  | none => reg = none
  | some value => ∃ p, reg = some p ∧ regLen = value.length ∧ mem.read p value.length = value ∧
      value.length + 16 < 2 ^ 32

structure Sees (mem : Buffer) (s : Banks) (v : View) : Prop where
  address : s.addrCells = v.cells.address
  size : s.sizeCells = v.cells.size
  isMemory : s.isMemory = v.isMemory
  reg : RegIs mem s.reg s.regLen v.reg

variable {mem : Buffer} {strings p q lo : ℕ} {props : List Property} {x : Property} {v : View}
  {s : Banks} {depth : ℤ}

/-! ### Properties -/

/-- The values that the code reads as strings or numbers are such. -/
structure Typed (depth : ℤ) (x : Property) : Prop where
  text : x.name = ascii "device_type" → ∃ text, 0 ∉ text ∧ x.value = text ++ [0]
  address : depth = 1 → x.name = ascii "#address-cells" → x.value.length = 4
  size : depth = 1 → x.name = ascii "#size-cells" → x.value.length = 4

variable {val : ℕ} {value : List UInt8}

theorem be32_value (bytes : mem.read val value.length = value) (four : value.length = 4) :
    be32 mem val = beValue value := by
  rw [four] at bytes
  rw [be32_eq_word, word, bytes]

theorem streq_value {text lit : List UInt8} (bytes : mem.read val value.length = value)
    (ending : value = text ++ [0]) (clean : 0 ∉ text) (clean' : 0 ∉ lit) :
    streq mem val lit = decide (value = lit ++ [0]) := by
  have here : Text mem val text := by
    rw [ending, length_append] at bytes
    exact ⟨bytes, clean⟩
  rw [streq_iff here clean', ending]
  simp

open View

theorem Sees.prop {len name : ℕ} (sees : Sees mem s v) (typed : Typed s.depth x)
    (text : Text mem name x.name) (bytes : mem.read val x.value.length = x.value)
    (size : len = x.value.length) (small : x.value.length + 16 < 2 ^ 32) :
    Sees mem (s.prop mem len name val) (v.prop s.depth x) := by
  have kind : (x.name = ascii "device_type" ∧ streq mem val (ascii "memory") = true) ↔
      x.name = ascii "device_type" ∧ x.value = ascii "memory" ++ [0] := by
    refine and_congr_right fun here => ?_
    obtain ⟨text, clean, ending⟩ := typed.text here
    rw [streq_value bytes ending clean (by decide), decide_eq_true_eq]
  unfold Banks.prop View.prop
  simp only [streq_iff text (show 0 ∉ ascii "#address-cells" by decide),
    streq_iff text (show 0 ∉ ascii "#size-cells" by decide),
    streq_iff text (show 0 ∉ ascii "device_type" by decide),
    streq_iff text (show 0 ∉ ascii "reg" by decide), decide_eq_true_eq, kind]
  split_ifs with address cells memory reg
  · exact ⟨be32_value bytes (typed.address address.1 address.2), sees.size, sees.isMemory, sees.reg⟩
  · exact ⟨sees.address, be32_value bytes (typed.size cells.1 cells.2), sees.isMemory, sees.reg⟩
  · exact ⟨sees.address, sees.size, rfl, sees.reg⟩
  · exact ⟨sees.address, sees.size, sees.isMemory, val, rfl, size, bytes, small⟩
  · exact sees

theorem Banks.prop_frame (mem : Buffer) (s : Banks) (len name val : ℕ) :
    (s.prop mem len name val).depth = s.depth ∧ (s.prop mem len name val).banks = s.banks := by
  unfold Banks.prop
  split_ifs <;> exact ⟨rfl, rfl⟩

theorem le_aligned (p : ℕ) : p ≤ aligned p := by
  unfold aligned
  omega

theorem PropsAt.le (at_p : PropsAt mem strings p props q) : p ≤ q := by
  induction at_p with
  | nil => exact le_rfl
  | nop _ _ ih => omega
  | @prop p q x props _ _ _ _ _ ih =>
    have := le_aligned (p + 12 + x.value.length)
    omega

theorem props_reach (at_p : PropsAt mem strings p props q) (low : lo ≤ p)
    (high : q + 5 ≤ lo + 2 ^ 32) (typed : ∀ x ∈ props, Typed s.depth x) (sees : Sees mem s v) :
    ∃ s', Reaches (Banks.turn mem) mem strings p s q s' ∧
      Sees mem s' (props.foldl (View.prop s.depth) v) ∧ s'.depth = s.depth ∧ s'.banks = s.banks := by
  induction at_p generalizing s v with
  | nil p => exact ⟨s, .refl, sees, rfl, rfl⟩
  | nop tok _ ih =>
    obtain ⟨s', reach, rest⟩ := ih (by omega) high typed sees
    exact ⟨s', (reaches_nop tok).trans reach, rest⟩
  | @prop p q x props tok size text bytes at_q ih =>
    obtain ⟨here, later⟩ := forall_mem_cons.mp typed
    have before := le_aligned (p + 12 + x.value.length)
    have after := at_q.le
    obtain ⟨depth, banks⟩ :=
      s.prop_frame mem x.value.length (strings + word mem (p + 8)) (p + 12)
    have seen := sees.prop here text bytes rfl (by omega)
    have step : Reaches (Banks.turn mem) mem strings p s (aligned (p + 12 + x.value.length))
        (s.prop mem x.value.length (strings + word mem (p + 8)) (p + 12)) :=
      reaches_token (.of_forall (token_prop tok size rfl)) (.of_forall fun _ => rfl) trivial
    rw [← depth] at later seen
    obtain ⟨s', reach, last, depth', banks'⟩ := ih (by omega) high later seen
    refine ⟨s', step.trans reach, ?_, depth'.trans depth, banks'.trans banks⟩
    rwa [foldl_cons, ← depth]

/-! ### The properties of a node by their names -/

theorem foldl_lookup {β : Type} (depth : ℤ) (field : View → β) (name : String)
    (put : List UInt8 → β → β) (step : ∀ v x, field (View.prop depth v x) =
      if x.name = ascii name then put x.value (field v) else field v)
    (nodup : (props.map (·.name)).Nodup) (v : View) :
    field (props.foldl (View.prop depth) v) =
      ((lookup props name).map fun value => put value (field v)).getD (field v) := by
  induction props generalizing v with
  | nil => rfl
  | cons x props ih =>
    rw [map_cons, nodup_cons] at nodup
    rw [foldl_cons, ih nodup.2, step]
    unfold lookup
    by_cases here : x.name = ascii name
    · have none : props.find? (·.name = ascii name) = none := by
        rw [find?_eq_none]
        intro y mem same
        refine nodup.1 (mem_map.mpr ⟨y, mem, ?_⟩)
        rw [here]
        simpa using same
      rw [none, find?_cons_of_pos (by simpa using here), if_pos here]
      rfl
    · rw [find?_cons_of_neg (by simpa using here), if_neg here]

theorem foldl_reg (depth : ℤ) (nodup : (props.map (·.name)).Nodup) (v : View) :
    (props.foldl (View.prop depth) v).reg = ((lookup props "reg").map some).getD v.reg := by
  refine foldl_lookup depth reg "reg" (fun value _ => some value) (fun v x => ?_) nodup v
  unfold prop
  by_cases here : x.name = ascii "reg"
  · have other : ascii "reg" ≠ ascii "#address-cells" ∧ ascii "reg" ≠ ascii "#size-cells" ∧
        ascii "reg" ≠ ascii "device_type" := by decide
    simp [here, other]
  · split_ifs <;> rfl

theorem foldl_isMemory (depth : ℤ) (nodup : (props.map (·.name)).Nodup) (v : View) :
    (props.foldl (View.prop depth) v).isMemory = ((lookup props "device_type").map
      fun value => v.isMemory || decide (value = ascii "memory" ++ [0])).getD v.isMemory := by
  refine foldl_lookup depth View.isMemory "device_type"
    (fun value b => b || decide (value = ascii "memory" ++ [0])) (fun v x => ?_) nodup v
  unfold prop
  by_cases here : x.name = ascii "device_type"
  · have other : ascii "device_type" ≠ ascii "#address-cells" ∧
        ascii "device_type" ≠ ascii "#size-cells" ∧ ascii "device_type" ≠ ascii "reg" := by decide
    by_cases kind : x.value = ascii "memory" ++ [0]
    · simp [here, other, kind]
    · simp [here, other, kind]
  · simp only [here, false_and, if_false]
    split_ifs <;> rfl

theorem foldl_cells_inner (inner : depth ≠ 1) (v : View) :
    (props.foldl (View.prop depth) v).cells = v.cells := by
  induction props generalizing v with
  | nil => rfl
  | cons x props ih =>
    rw [foldl_cons, ih]
    unfold prop
    simp only [inner, false_and, if_false]
    split_ifs <;> rfl

theorem foldl_cells_root (nodup : (props.map (·.name)).Nodup) (v : View)
    (start : v.cells = ⟨2, 1⟩) : (props.foldl (View.prop 1) v).cells = cellsOf props := by
  have address : ∀ v x, (prop 1 v x).cells.address =
      if x.name = ascii "#address-cells" then beValue x.value else v.cells.address := by
    intro v x
    unfold prop
    by_cases here : x.name = ascii "#address-cells"
    · simp [here]
    · simp only [here, and_false, if_false]
      split_ifs <;> rfl
  have size : ∀ v x, (prop 1 v x).cells.size =
      if x.name = ascii "#size-cells" then beValue x.value else v.cells.size := by
    intro v x
    unfold prop
    by_cases here : x.name = ascii "#size-cells"
    · have other : ascii "#size-cells" ≠ ascii "#address-cells" := by decide
      simp [here, other]
    · simp only [here, and_false, if_false]
      split_ifs <;> rfl
  have address := foldl_lookup 1 (fun v => v.cells.address) _ (fun value _ => beValue value) address
    nodup v
  have size := foldl_lookup 1 (fun v => v.cells.size) _ (fun value _ => beValue value) size nodup v
  rw [start] at address size
  unfold cellsOf
  rw [← address, ← size]

/-! ### Nodes -/

def nameIsMemory (name : List UInt8) : Bool :=
  (ascii "memory@").isPrefixOf name || name = ascii "memory"

variable {name : List UInt8}

theorem foldl_isMemory_eq (depth : ℤ) (nodup : (props.map (·.name)).Nodup)
    (start : v.isMemory = nameIsMemory name) :
    (props.foldl (View.prop depth) v).isMemory = isMemory name props := by
  rw [foldl_isMemory depth nodup, start]
  unfold isMemory nameIsMemory
  cases lookup props "device_type" with
  | none | some value => simp

def Banks.entered (s : Banks) (name : List UInt8) : Banks where
  addrCells := s.addrCells
  sizeCells := s.sizeCells
  depth := s.depth + 1
  isMemory := nameIsMemory name
  reg := none
  regLen := 0
  banks := s.banks

def Banks.view (s : Banks) (name : List UInt8) : View :=
  ⟨⟨s.addrCells, s.sizeCells⟩, nameIsMemory name, none⟩

theorem entered_sees (mem : Buffer) (s : Banks) (name : List UInt8) :
    Sees mem (s.entered name) (s.view name) := ⟨rfl, rfl, rfl, rfl⟩

theorem entered_reach (tok : word mem p = 1) (text : Text mem (p + 4) name) :
    Reaches (Banks.turn mem) mem strings p s (aligned (p + 4 + name.length + 1)) (s.entered name) := by
  refine reaches_token (token_beginNode tok text) (.of_forall fun fuel => ?_) trivial
  simp only [Banks.turn, strstarts_iff text (show 0 ∉ ascii "memory@" by decide),
    streq_iff text (show 0 ∉ ascii "memory" by decide)]
  rfl

structure Left (s : Banks) (c : Cells) (regions : List Region) (s' : Banks) : Prop where
  address : s'.addrCells = c.address
  size : s'.sizeCells = c.size
  depth : s'.depth = s.depth
  isMemory : s'.isMemory = false
  reg : s'.reg = none
  banks : s'.banks = s.banks ++ regions

def Cells.Small (c : Cells) : Prop :=
  (c.address = 1 ∨ c.address = 2) ∧ (c.size = 1 ∨ c.size = 2)

theorem collect_settles (sees : Sees mem s v) (small : v.cells.Small) :
    Settles (fun fuel => s.collect mem fuel)
      (s.banks ++ if v.isMemory then (v.reg.map v.cells.pairs).getD [] else []) := by
  have reg := sees.reg
  unfold Banks.collect
  rw [sees.isMemory]
  cases memory : v.isMemory with
  | false => exact .of_forall fun _ => by simp
  | true =>
    cases value : v.reg with
    | none =>
      rw [value] at reg
      rw [show s.reg = none from reg]
      exact .of_forall fun _ => by simp
    | some value' =>
      rw [value] at reg
      obtain ⟨a, here, length, bytes, bound⟩ := reg
      rw [here, length, sees.address, sees.size]
      exact regLoop_pairs small.1 small.2 bytes bound s.banks

theorem left_reach (tok : word mem p = 2) (sees : Sees mem s v) (small : v.cells.Small) :
    ∃ s', Reaches (Banks.turn mem) mem strings p s (p + 4) s' ∧
      Left { s with depth := s.depth - 1 } v.cells
        (if v.isMemory then (v.reg.map v.cells.pairs).getD [] else []) s' := by
  have step := (collect_settles sees small).map fun banks =>
    { s with banks, depth := s.depth - 1, isMemory := false, reg := none }
  refine ⟨_, reaches_token (.of_forall (token_endNode tok)) step trivial, ?_⟩
  exact ⟨sees.address, sees.size, rfl, rfl, rfl, rfl⟩

structure Passed (c : Cells) (nodes : Nodes) (s s' : Banks) : Prop where
  same : nodes = .nil → s' = s
  left : nodes ≠ .nil → Left s c (nodes.leafMemory c) s'

theorem node_reach {r e : ℕ} {children : Nodes} (tok : word mem p = 1)
    (text : Text mem (p + 4) name)
    (at_p : PropsAt mem strings (aligned (p + 4 + name.length + 1)) props r) (low : lo ≤ p)
    (high : r + 5 ≤ lo + 2 ^ 32) (nodup : (props.map (·.name)).Nodup)
    (typed : ∀ x ∈ props, Typed (s.depth + 1) x) {c : Cells}
    (cells : (props.foldl (View.prop (s.depth + 1)) (s.view name)).cells = c) (small : c.Small)
    (inner : ∀ s₂ : Banks, s₂.depth = s.depth + 1 → s₂.addrCells = c.address →
      s₂.sizeCells = c.size →
      ∃ s₃, Reaches (Banks.turn mem) mem strings r s₂ e s₃ ∧ Passed c children s₂ s₃)
    (tok' : word mem e = 2) :
    ∃ s', Reaches (Banks.turn mem) mem strings p s (e + 4) s' ∧
      Left s c (if children = .nil then memoryPairs c name props else children.leafMemory c) s' := by
  have before := le_aligned (p + 4 + name.length + 1)
  obtain ⟨s₂, reach₂, sees, depth, banks⟩ := props_reach at_p
    (show lo ≤ aligned (p + 4 + name.length + 1) by omega) high typed (entered_sees mem s name)
  have found : (props.foldl (prop (s.depth + 1)) (s.view name)).isMemory = isMemory name props :=
    foldl_isMemory_eq (s.depth + 1) nodup rfl
  have reg := foldl_reg (s.depth + 1) nodup (s.view name)
  change Sees mem s₂ (props.foldl (prop (s.depth + 1)) (s.view name)) at sees
  generalize props.foldl (prop (s.depth + 1)) (s.view name) = view at *
  subst cells
  obtain ⟨s₃, reach₃, passed⟩ := inner s₂ depth sees.address sees.size
  have start := (entered_reach tok text).trans (reach₂.trans reach₃)
  have up : s₂.depth - 1 = s.depth := by
    rw [depth]
    exact Int.add_sub_cancel s.depth 1
  by_cases leaf : children = .nil
  · -- the flags still stand for this node
    rw [passed.same leaf] at start
    obtain ⟨s', reach, left⟩ := left_reach tok' sees small
    refine ⟨s', start.trans reach, { left with depth := left.depth.trans up, banks := ?_ }⟩
    rw [left.banks, if_pos leaf, found, reg, memoryPairs, regPairs]
    cases lookup props "reg" <;> exact congrArg (· ++ _) banks
  · -- the last child has reset them
    have inside := passed.left leaf
    obtain ⟨s', reach, left⟩ := left_reach (v := ⟨view.cells, false, none⟩) tok'
      { inside with } small
    refine ⟨s', start.trans reach, { left with depth := ?_, banks := ?_ }⟩
    · rw [left.depth, ← up, inside.depth]
    · rw [left.banks, if_neg leaf, if_neg (by simp), append_nil, inside.banks]
      exact congrArg (· ++ _) banks

variable {nodes : Nodes}

theorem NodesAt.le (at_p : NodesAt mem strings p nodes q) : p ≤ q := by
  induction at_p with
  | nil => exact le_rfl
  | nop _ _ ih => omega
  | @node p q r e name props children next _ _ at_r _ _ _ ih ih' =>
    have := le_aligned (p + 4 + name.length + 1)
    have := at_r.le
    omega

theorem typed_inner {depth : ℤ} (inner : depth ≠ 1)
    (text : ∀ x ∈ props, x.name = ascii "device_type" → ∃ text, 0 ∉ text ∧ x.value = text ++ [0]) :
    ∀ x ∈ props, Typed depth x :=
  fun x mem => ⟨text x mem, fun one => absurd one inner, fun one => absurd one inner⟩

theorem nodes_reach (at_p : NodesAt mem strings p nodes q) (low : lo ≤ p)
    (high : q + 5 ≤ lo + 2 ^ 32) (ok : nodes.Ok) {c : Cells} (small : c.Small) (s : Banks)
    (deep : 1 ≤ s.depth) (address : s.addrCells = c.address) (size : s.sizeCells = c.size) :
    ∃ s', Reaches (Banks.turn mem) mem strings p s q s' ∧ Passed c nodes s s' := by
  induction at_p generalizing s with
  | nil p => exact ⟨s, .refl, fun _ => rfl, fun some => absurd rfl some⟩
  | nop tok _ ih =>
    obtain ⟨s', reach, passed⟩ := ih (by omega) high ok s deep address size
    exact ⟨s', (reaches_nop tok).trans reach, passed⟩
  | @node p q r e name props children next tok text at_r at_e tok' at_q ih ih' =>
    obtain ⟨nodup, texts, okChildren, okNext⟩ := ok
    have before := le_aligned (p + 4 + name.length + 1)
    have bounds := at_r.le
    have bounds' := at_e.le
    have bounds'' := at_q.le
    have cells : (props.foldl (prop (s.depth + 1)) (s.view name)).cells = c := by
      rw [foldl_cells_inner (by omega), Banks.view, address, size]
    obtain ⟨s₄, reach₄, left⟩ := node_reach tok text at_r low (by omega) nodup
      (typed_inner (by omega) texts) cells small
      (fun s₂ depth address size =>
        ih (by omega) (by omega) okChildren s₂ (by omega) address size) tok'
    obtain ⟨s', reach', passed⟩ := ih' (by omega) high okNext s₄ (left.depth ▸ deep) left.address
      left.size
    refine ⟨s', reach₄.trans reach', by simp, fun _ => ?_⟩
    by_cases last : next = .nil
    · rw [passed.same last]
      refine { left with banks := ?_ }
      rw [left.banks, leafMemory, last, leafMemory, append_nil]
    · have behind := passed.left last
      refine { behind with depth := behind.depth.trans left.depth, banks := ?_ }
      rw [behind.banks, left.banks, leafMemory, append_assoc]

/-! ### The root -/

theorem nil_reach {σ : Type} {turn : ℕ → σ → Token → Option σ} {s : σ}
    (at_p : NodesAt mem strings p nodes q) (none : nodes = .nil) :
    Reaches turn mem strings p s q s := by
  induction at_p with
  | nil => exact .refl
  | nop tok _ ih => exact (reaches_nop tok).trans (ih none)
  | node => cases none

theorem lookup_mem {name : String} (found : lookup props name = some value) :
    ∃ x ∈ props, x.name = ascii name ∧ x.value = value := by
  obtain ⟨x, here, rfl⟩ := Option.map_eq_some_iff.mp found
  exact ⟨x, mem_of_find?_eq_some here, by simpa using find?_some here, rfl⟩

variable {blob total : ℕ} {t : Tree} {entries : List Region}

section

variable (flat : Flattened mem blob total t entries)

include flat

theorem Flattened.small : (cellsOf t.props).Small := by
  constructor
  · unfold cellsOf
    cases found : lookup t.props "#address-cells" with
    | none => exact .inr rfl
    | some value =>
      obtain ⟨x, mem, name, rfl⟩ := lookup_mem found
      exact (flat.address_cells x mem name).2
  · unfold cellsOf
    cases found : lookup t.props "#size-cells" with
    | none => exact .inl rfl
    | some value =>
      obtain ⟨x, mem, name, rfl⟩ := lookup_mem found
      exact (flat.size_cells x mem name).2

theorem Flattened.typed : ∀ x ∈ t.props, Typed 1 x :=
  fun x mem => ⟨flat.ok.2.1 x mem, fun _ name => (flat.address_cells x mem name).1,
    fun _ name => (flat.size_cells x mem name).1⟩

theorem root_reach (at_p : NodesAt mem strings p nodes q) (root : nodes = t.root) (low : blob ≤ p)
    (high : q + 5 ≤ blob + 2 ^ 32) :
    ∃ s', Reaches (Banks.turn mem) mem strings p .start q s' ∧
      s'.banks = t.root.leafMemory (cellsOf t.props) := by
  induction at_p with
  | nil => cases root
  | nop tok _ ih =>
    obtain ⟨s', reach, banks⟩ := ih root (by omega) high
    exact ⟨s', (reaches_nop tok).trans reach, banks⟩
  | @node p q r e name props children next tok text at_r at_e tok' at_q _ _ =>
    obtain ⟨rfl, rfl, rfl, rfl⟩ := node.inj root
    obtain ⟨nodup, -, okChildren, -⟩ := flat.ok
    have before := le_aligned (p + 4 + ([] : List UInt8).length + 1)
    have bounds := at_r.le
    have bounds' := at_e.le
    have bounds'' := at_q.le
    have cells : (t.props.foldl (prop (Banks.start.depth + 1)) (Banks.start.view [])).cells =
        cellsOf t.props := foldl_cells_root nodup _ rfl
    obtain ⟨s', reach, left⟩ := node_reach (s := .start) tok text at_r low (by omega) nodup flat.typed
      cells flat.small (fun s₂ depth address size => nodes_reach at_e (show blob ≤ r by omega)
        (by omega) okChildren flat.small s₂ (by rw [depth]; decide) address size) tok'
    refine ⟨s', reach.trans (nil_reach at_q rfl), ?_⟩
    rw [left.banks, Tree.root, leafMemory, leafMemory, append_nil]
    rfl

theorem Flattened.valid : isValid mem blob := by
  have magic := flat.magic
  unfold isValid
  rw [be32_eq_word, magic]
  simpa using flat.nonnull

theorem getMemoryBanks_settles :
    Settles (getMemoryBanks mem blob) (t.root.leafMemory (cellsOf t.props)) := by
  obtain ⟨q, at_p, ending, inside⟩ := flat.root
  have bound := word_lt mem (blob + 4)
  rw [flat.totalsize] at bound
  obtain ⟨s', reach, banks⟩ := root_reach flat at_p rfl (by omega) (by omega)
  have done := (reach s' (walk_end ending)).map (·.banks)
  rw [banks] at done
  unfold getMemoryBanks
  simp only [flat.valid, if_true, be32_eq_word]
  exact done

end

/-! ## What the reserved regions are taken from -/

/-- The walk is not in the node it looks for. -/
structure Quiet (r : Reserved) (regions : List Region) (depth : ℤ) : Prop where
  inParent : r.inParent = false
  inChild : r.inChild = false
  reserved : r.reserved = regions
  depth : r.depth = depth

variable {r : Reserved} {regions : List Region}

open Reserved

theorem Quiet.prop (quiet : Quiet r regions depth) (mem : Buffer) (len name val : ℕ) :
    Quiet (r.prop mem len name val) regions depth := by
  obtain ⟨parent, child, reserved, depth⟩ := quiet
  unfold Reserved.prop
  dsimp only
  split_ifs <;> exact ⟨parent, child, reserved, depth⟩

theorem Quiet.begin (quiet : Quiet r regions depth) {nodename : ℕ} (text : Text mem nodename name)
    (inner : 1 ≤ depth ∨ name = []) :
    Quiet (r.begin mem nodename) regions (depth + 1) := by
  obtain ⟨parent, child, reserved, rfl⟩ := quiet
  have outside : ¬(r.depth + 1 = 1 ∧ (streq mem nodename (ascii "reserved-memory") ∨
      strstarts mem nodename (ascii "reserved-memory@"))) := by
    rintro ⟨top, named⟩
    rw [streq_iff text (by decide), strstarts_iff text (by decide)] at named
    rcases inner with deep | rfl
    · omega
    · revert named
      decide
  unfold begin
  dsimp only
  rw [if_neg outside, if_neg (by simp [parent])]
  exact ⟨parent, child, reserved, rfl⟩

theorem Quiet.leave (quiet : Quiet r regions depth) : Quiet (r.leave regions) regions (depth - 1) := by
  obtain ⟨parent, child, -, rfl⟩ := quiet
  unfold leave
  dsimp only
  split_ifs
  · exact ⟨parent, rfl, rfl, rfl⟩
  · exact ⟨rfl, child, rfl, rfl⟩
  · exact ⟨parent, child, rfl, rfl⟩

theorem quiet_props (at_p : PropsAt mem strings p props q) (quiet : Quiet r regions depth) :
    ∃ r', Reaches (Reserved.turn mem) mem strings p r q r' ∧ Quiet r' regions depth := by
  induction at_p generalizing r with
  | nil => exact ⟨r, .refl, quiet⟩
  | nop tok _ ih =>
    obtain ⟨r', reach, quiet'⟩ := ih quiet
    exact ⟨r', (reaches_nop tok).trans reach, quiet'⟩
  | @prop p q x props tok size text bytes _ ih =>
    obtain ⟨r', reach, quiet'⟩ :=
      ih (quiet.prop mem x.value.length (strings + word mem (p + 8)) (p + 12))
    exact ⟨r', (reaches_token (.of_forall (token_prop tok size rfl)) (.of_forall fun _ => rfl)
      trivial).trans reach, quiet'⟩

theorem quiet_end (tok : word mem p = 2) (quiet : Quiet r regions depth) :
    Reaches (Reserved.turn mem) mem strings p r (p + 4) (r.leave regions) := by
  refine reaches_token (.of_forall (token_endNode tok)) (.of_forall fun fuel => ?_) trivial
  have collected : r.collect mem fuel = some regions := by
    unfold collect
    rw [quiet.inChild, quiet.reserved]
  simp only [turn, collected, Option.map_some]

/-- No node below the root, and no root with an empty name, is taken for `reserved-memory`. -/
theorem quiet_nodes (at_p : NodesAt mem strings p nodes q) (quiet : Quiet r regions depth)
    (inner : 1 ≤ depth ∨ depth = 0 ∧ ∃ t : Tree, nodes = t.root) :
    ∃ r', Reaches (Reserved.turn mem) mem strings p r q r' ∧ Quiet r' regions depth := by
  induction at_p generalizing r depth with
  | nil => exact ⟨r, .refl, quiet⟩
  | nop tok _ ih =>
    obtain ⟨r', reach, quiet'⟩ := ih quiet inner
    exact ⟨r', (reaches_nop tok).trans reach, quiet'⟩
  | @node p q u e name props children next tok text at_r at_e tok' at_q ih ih' =>
    have opened := quiet.begin text (inner.imp_right fun ⟨_, t, root⟩ => (node.inj root).1)
    obtain ⟨r₂, reach₂, quiet₂⟩ := quiet_props at_r opened
    obtain ⟨r₃, reach₃, quiet₃⟩ := ih quiet₂ (.inl (by omega))
    have start : Reaches (turn mem) mem strings p r (aligned (p + 4 + name.length + 1))
        (r.begin mem (p + 4)) :=
      reaches_token (token_beginNode tok text) (.of_forall fun _ => rfl) trivial
    have closed := quiet₃.leave
    rw [Int.add_sub_cancel] at closed
    have whole := start.trans (reach₂.trans (reach₃.trans (quiet_end tok' quiet₃)))
    rcases inner with deep | ⟨-, t, root⟩
    · obtain ⟨r', reach, quiet'⟩ := ih' closed (.inl deep)
      exact ⟨r', whole.trans reach, quiet'⟩
    · exact ⟨_, whole.trans (nil_reach at_q (node.inj root).2.2.2), closed⟩

theorem reservationLoop_settles {limit : ℕ} (at_p : ReservationsAt mem limit p entries)
    (reserved : List Region) :
    Settles (fun fuel => reservationLoop mem limit fuel p reserved)
      (reserved ++ entries.filter (0 < ·.size)) := by
  have pair : ∀ p, be32 mem p <<< 32 ||| be32 mem (p + 4) = beValue (mem.read p 8) := fun p => by
    rw [be32_eq_word, be32_eq_word, shift_or_word]
  induction at_p generalizing reserved with
  | stop inside base size =>
    refine ⟨1, fun fuel enough => ?_⟩
    obtain ⟨n, rfl⟩ := Nat.exists_eq_add_of_le' enough
    simp only [reservationLoop, if_pos inside, pair, base, size, and_self, if_true,
      filter_nil, append_nil]
  | @entry p x rest inside base size nonzero _ ih =>
    have turn : ∀ fuel, reservationLoop mem limit (fuel + 1) p reserved =
        reservationLoop mem limit fuel (p + 16)
          (if x.size > 0 then reserved ++ [x] else reserved) := fun fuel => by
      simp only [reservationLoop, if_pos inside, pair, base, size, if_neg nonzero]
    have result : (if x.size > 0 then reserved ++ [x] else reserved) ++ rest.filter (0 < ·.size) =
        reserved ++ (x :: rest).filter (0 < ·.size) := by
      split_ifs <;> simp_all
    rw [← result]
    exact (ih _).succ turn

theorem Flattened.total_pos (flat : Flattened mem blob total t entries) : 0 < total := by
  obtain ⟨q, at_p, -, inside⟩ := flat.root
  have := at_p.le
  omega

theorem getReservedRegions_settles (flat : Flattened mem blob total t entries) (phys : ℕ) :
    Settles (getReservedRegions mem phys blob)
      (entries.filter (0 < ·.size) ++ if phys ≠ 0 then [⟨phys, total⟩] else []) := by
  obtain ⟨q, at_p, ending, inside⟩ := flat.root
  have block := reservationLoop_settles flat.reservations []
  have positive := flat.total_pos
  have regions : (if phys ≠ 0 ∧ total > 0 then entries.filter (0 < ·.size) ++ [⟨phys, total⟩]
      else entries.filter (0 < ·.size)) =
        entries.filter (0 < ·.size) ++ if phys ≠ 0 then [⟨phys, total⟩] else [] := by
    by_cases known : phys ≠ 0
    · rw [if_pos ⟨known, positive⟩, if_pos known]
    · rw [if_neg fun h => known h.1, if_neg known, append_nil]
  obtain ⟨r', reach, quiet⟩ := quiet_nodes at_p (r := .start (if phys ≠ 0 ∧ total > 0 then
    entries.filter (0 < ·.size) ++ [⟨phys, total⟩] else entries.filter (0 < ·.size)))
    ⟨rfl, rfl, rfl, rfl⟩ (.inr ⟨rfl, t, rfl⟩)
  have done := (reach r' (walk_end ending)).map (·.reserved)
  rw [quiet.reserved] at done
  rw [← regions]
  unfold getReservedRegions
  simp only [flat.valid, if_true, be32_eq_word, flat.totalsize]
  exact block.bind (g := fun fuel reserved => (walk (turn mem) mem
    (blob + word mem (blob + 12)) fuel (blob + word mem (blob + 8)) (.start
      (if phys ≠ 0 ∧ total > 0 then reserved ++ [⟨phys, total⟩] else reserved))).map (·.reserved)) done

/-! ## The layout -/

def Reports (mem : Buffer) (phys blob total : ℕ) (t : Tree) (entries : List Region) : Prop :=
  Settles (getMemoryBanks mem blob) t.memoryBanks ∧
    Settles (getReservedRegions mem phys blob) (entries ++ ⟨phys, total⟩ :: t.reservedMemory)

/-- The memory nodes without children, at any depth, have the pairs of the memory nodes of the root; no
reservation has size zero, the address of the blob is known, and the children of `reserved-memory` have
no pair. -/
structure Simple (phys : ℕ) (t : Tree) (entries : List Region) : Prop where
  banks : t.root.leafMemory (cellsOf t.props) = t.memoryBanks
  entries : ∀ x ∈ entries, 0 < x.size
  phys : phys ≠ 0
  reserved : t.reservedMemory = []

theorem reserved_eq_iff (phys total : ℕ) (entries regions : List Region) :
    (entries.filter (0 < ·.size) ++ if phys ≠ 0 then [⟨phys, total⟩] else []) =
        entries ++ ⟨phys, total⟩ :: regions ↔
      (∀ x ∈ entries, 0 < x.size) ∧ phys ≠ 0 ∧ regions = [] := by
  have shorter := length_filter_le (fun x : Region => decide (0 < x.size)) entries
  constructor
  · intro same
    have lengths := congrArg List.length same
    rw [length_append, length_append, length_cons] at lengths
    split_ifs at lengths with known
    · rw [length_singleton] at lengths
      have kept : (entries.filter (0 < ·.size)).length = entries.length := by omega
      refine ⟨fun x mem => ?_, known, length_eq_zero_iff.mp (by omega)⟩
      simpa using length_filter_eq_length_iff.mp kept x mem
    · rw [length_nil] at lengths
      omega
  · rintro ⟨sizes, known, rfl⟩
    rw [if_pos known, filter_eq_self.mpr fun x mem => by simpa using sizes x mem]

/-- For a well-formed flattened tree. -/
theorem reports_iff {mem : Buffer} {blob total : ℕ} {t : Tree} {entries : List Region}
    (flat : Flattened mem blob total t entries) (phys : ℕ) :
    Reports mem phys blob total t entries ↔ Simple phys t entries := by
  have banks := getMemoryBanks_settles flat
  have reserved := getReservedRegions_settles flat phys
  constructor
  · rintro ⟨banks', reserved'⟩
    obtain ⟨sizes, known, none⟩ :=
      (reserved_eq_iff phys total entries t.reservedMemory).mp (reserved.unique reserved')
    exact ⟨banks.unique banks', sizes, known, none⟩
  · rintro ⟨same, sizes, known, none⟩
    refine ⟨same ▸ banks, ?_⟩
    rw [← (reserved_eq_iff phys total entries t.reservedMemory).mpr ⟨sizes, known, none⟩]
    exact reserved

def stored (bytes : List UInt8) : Buffer := fun i => bytes.getD (i - 8) 0

def words (ns : List ℕ) : List UInt8 := ns.flatMap (beBytes 4)

def plainTree : Tree where
  props := []
  children := .node (ascii "memory") [⟨ascii "reg", words [0, 0x40000000, 0x10000000]⟩] .nil .nil

def plainBlob : Buffer :=
  stored (words [0xd00dfeed, 132, 72, 128, 40, 17, 16, 0, 4, 56] ++ words [0, 0x1000, 0, 0x100] ++
    words [0, 0, 0, 0] ++ words [1, 0, 1] ++ ascii "memory" ++ [0, 0] ++
    words [3, 12, 0, 0, 0x40000000, 0x10000000, 2, 2, 9] ++ ascii "reg" ++ [0])

theorem flattened_plain : Flattened plainBlob 8 132 plainTree [⟨0x1000, 0x100⟩] where
  nonnull := by decide
  blob_aligned := by decide
  magic := by decide +kernel
  totalsize := by decide +kernel
  structure_aligned := by decide +kernel
  root := by
    refine ⟨132, ?_, by decide +kernel, by decide⟩
    refine .node (r := 88) (s := 128) (by decide +kernel) ⟨by decide +kernel, by decide⟩ (.nil 88) ?_
      (by decide +kernel) (.nil 132)
    refine .node (r := 124) (s := 124) (by decide +kernel) ⟨by decide +kernel, by decide⟩ ?_ (.nil 124)
      (by decide +kernel) (.nil 128)
    exact .prop (by decide +kernel) (by decide +kernel) ⟨by decide +kernel, by decide⟩
      (by decide +kernel) (.nil 124)
  reservations :=
    .entry (by decide) (by decide +kernel) (by decide +kernel) (by decide)
      (.stop (by decide) (by decide +kernel) (by decide +kernel))
  ok := by
    refine ⟨by decide, forall_mem_nil _, ⟨by decide, ?_, trivial, trivial⟩, trivial⟩
    intro x mem name
    rw [mem_singleton.mp mem] at name
    exact absurd name (by decide)
  address_cells := by decide
  size_cells := by decide

theorem reports_plain : Reports plainBlob 0x80000 8 132 plainTree [⟨0x1000, 0x100⟩] :=
  (reports_iff flattened_plain 0x80000).mpr
    ⟨by decide +kernel, by decide, by decide, by decide +kernel⟩

def reservedTree : Tree where
  props := []
  children := .node (ascii "reserved-memory") []
    (.node (ascii "a") [⟨ascii "reg", words [0, 0x50000000, 0x100000]⟩] .nil .nil) .nil

def reservedBlob : Buffer :=
  stored (words [0xd00dfeed, 136, 56, 132, 40, 17, 16, 0, 4, 76] ++ words [0, 0, 0, 0] ++
    words [1, 0, 1] ++ ascii "reserved-memory" ++ [0] ++ words [1] ++ ascii "a" ++ [0, 0, 0] ++
    words [3, 12, 0, 0, 0x50000000, 0x100000, 2, 2, 2, 9] ++ ascii "reg" ++ [0])

theorem flattened_reserved : Flattened reservedBlob 8 136 reservedTree [] where
  nonnull := by decide
  blob_aligned := by decide
  magic := by decide +kernel
  totalsize := by decide +kernel
  structure_aligned := by decide +kernel
  root := by
    refine ⟨136, ?_, by decide +kernel, by decide⟩
    refine .node (r := 72) (s := 132) (by decide +kernel) ⟨by decide +kernel, by decide⟩ (.nil 72) ?_
      (by decide +kernel) (.nil 136)
    refine .node (r := 92) (s := 128) (by decide +kernel) ⟨by decide +kernel, by decide⟩ (.nil 92) ?_
      (by decide +kernel) (.nil 132)
    refine .node (r := 124) (s := 124) (by decide +kernel) ⟨by decide +kernel, by decide⟩ ?_ (.nil 124)
      (by decide +kernel) (.nil 128)
    exact .prop (by decide +kernel) (by decide +kernel) ⟨by decide +kernel, by decide⟩
      (by decide +kernel) (.nil 124)
  reservations := .stop (by decide) (by decide +kernel) (by decide +kernel)
  ok := by
    refine ⟨by decide, forall_mem_nil _,
      ⟨by decide, forall_mem_nil _, ⟨by decide, ?_, trivial, trivial⟩, trivial⟩, trivial⟩
    intro x mem name
    rw [mem_singleton.mp mem] at name
    exact absurd name (by decide)
  address_cells := by decide
  size_cells := by decide

theorem not_reports_reserved : Flattened reservedBlob 8 136 reservedTree [] ∧
    reservedTree.reservedMemory = [⟨0x50000000, 0x100000⟩] ∧
    Settles (getReservedRegions reservedBlob 0x80000 8) [⟨0x80000, 136⟩] ∧
    ¬ Reports reservedBlob 0x80000 8 136 reservedTree [] := by
  have settles : Settles (getReservedRegions reservedBlob 0x80000 8) [⟨0x80000, 136⟩] :=
    getReservedRegions_settles flattened_reserved 0x80000
  have listed : reservedTree.reservedMemory = [⟨0x50000000, 0x100000⟩] := by decide +kernel
  refine ⟨flattened_reserved, listed, settles, ?_⟩
  rintro ⟨-, reported⟩
  have same := settles.unique reported
  exact absurd same (by decide)

end JeoKernel.Dtb
