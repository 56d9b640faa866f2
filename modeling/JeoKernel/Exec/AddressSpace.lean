import Mathlib.Algebra.Ring.Int.Defs
import JeoKernel.Lib.Loop

/-!
# The address space of a process

The mappings of a `Process`, its page tables, and the functions of `process.cpp` that change them.
Addresses are page numbers, physical ones too (an address is its page number shifted by 12).  Page
numbers of user space are 32-bit words, and so are the sums that the source computes with them.

A page table that is missing is allocated when an entry is written; `grants page` tells whether that
succeeds for the table of `page` during the call.  The page for a `PagetableRoot` itself is taken to be
found: where there is none, the source goes on with a pointer that is not mapped.
-/

namespace JeoKernel.AddressSpace

open Function Loop

def wrap32 (n : ℕ) : ℕ := n % 2 ^ 32

theorem wrap32_eq {n : ℕ} (small : n < 2 ^ 32) : wrap32 n = n := Nat.mod_eq_of_lt small

/-! ## Page tables -/

/-- The bits of `pageentr` that a process uses. -/
structure PageEntry where
  present : Bool
  writeable : Bool
  userAccess : Bool
  executionDisabled : Bool
  pagePpn : ℕ
  deriving DecidableEq

def PageEntry.zero : PageEntry := ⟨false, false, false, false, 0⟩

/-- The physical pages that tables are made of have numbers below `top`. -/
class TableMemory where
  top : ℕ

/-- No table is at or above 4 GiB. -/
class LowTables extends TableMemory where
  low : top ≤ 2 ^ 20

variable [TableMemory]

/-- The pages that the lowest tables are in, and the entries in the tables. -/
structure PageTables where
  table : ℕ → Option (Fin TableMemory.top)
  entry : ℕ → PageEntry

def PageTables.leaf (t : PageTables) (k : ℕ) : Bool := (t.table k).isSome

/-- What `ppagealloc` answers when the table of a page is missing, and what the new page holds. -/
structure Grants where
  table : ℕ → Option (Fin TableMemory.top)
  old : ℕ → PageEntry

def Grants.nothing : Grants := ⟨fun _ => none, fun _ => .zero⟩

instance : CoeFun Grants fun _ => ℕ → Bool := ⟨fun grants page => (grants.table page).isSome⟩

/-- The pages below `USERSPACE_LOW_END` gigabytes and those from `PMLT4_USERSPACE_HIGH_START` on. -/
def userPage (page : ℕ) : Bool := page < 3 * 2 ^ 18 || (2 ^ 31 ≤ page && page < 2 ^ 32)

def PageTables.pageentry (t : PageTables) (page : ℕ) : Option PageEntry :=
  if userPage page && t.leaf (page / 512) then some (t.entry page) else none

/-- The page that is mapped for the table of a page that is in page `n`.  For the upper part of user
space the source shifts a 32-bit word. -/
def mappedTable (page n : ℕ) : ℕ := if page < 2 ^ 31 then n else wrap32 (n * 4096) / 4096

/-- The table of a page, allocated if it is missing.  What is cleared then is the mapped page. -/
def PageTables.makeLeaf (t : PageTables) (grants : Grants) (page : ℕ) : Option PageTables :=
  if !userPage page then none
  else if t.leaf (page / 512) then some t
  else
    (grants.table page).map fun n =>
      { table := update t.table (page / 512) (some n)
        entry := fun q =>
          if q / 512 = page / 512 then if mappedTable page n = n then .zero else grants.old q
          else t.entry q }

def PageTables.isMapped (t : PageTables) (page : ℕ) : Bool :=
  (t.table (page / 512)).any fun n => mappedTable page n = n

/-- `Pageentry(pagenum, func)`; `none` is the result `false`.  Where another page is mapped than the
one that the table is in, the entry stays as it is; what happens to the other page is left out. -/
def PageTables.modify (t : PageTables) (grants : Grants) (page : ℕ)
    (func : PageEntry → PageEntry) : Option PageTables :=
  (t.makeLeaf grants page).map fun t =>
    if t.isMapped page then { t with entry := update t.entry page (func (t.entry page)) } else t

/-- The loops that call `Pageentry` on the pages from `lo` to `hi` and return when it fails. -/
def modifyRange (grants : Grants) (func : PageEntry → PageEntry) (lo hi : ℕ) (t : PageTables) :
    Except PageTables PageTables :=
  forRange lo hi (fun p t =>
    match t.modify grants (wrap32 p) func with
    | some t => .ok t
    | none => .error t) t

/-- `Pageentry` on a page that may be left out, with its result ignored. -/
def PageTables.tryModify (t : PageTables) (grants : Grants) (page : ℕ)
    (func : Option (PageEntry → PageEntry)) : PageTables :=
  match func with
  | some f => (t.modify grants page f).getD t
  | none => t

/-- The loops that call `Pageentry` on some of the pages from `lo` to `hi` and ignore failures. -/
def tryModifyRange (grants : Grants) (func : ℕ → Option (PageEntry → PageEntry)) (lo hi : ℕ)
    (t : PageTables) : PageTables :=
  (List.range' lo (hi - lo)).foldl (fun t p => t.tryModify grants (wrap32 p) (func p)) t

/-! ## Mappings -/

/-- `PhysMapping`: a file-cache page, a page shared after a fork, or a private page. -/
structure PhysMapping where
  data : Option ℕ
  cow : Option ℕ
  physPage : ℕ
  page : ℕ
  deriving DecidableEq

/-- `MemMapping`; an image is named by a number. -/
structure MemMapping where
  image : Option ℕ
  pagenum : ℕ
  pages : ℕ
  imageSkipPages : ℕ
  load : ℕ
  read : Bool
  cow : Bool
  binaryMapping : Bool
  mappings : List PhysMapping
  deriving DecidableEq

def MemMapping.create (image : Option ℕ) (pagenum pages imageSkipPages load : ℕ)
    (cow binaryMapping : Bool) : MemMapping where
  image := image
  pagenum := pagenum
  pages := pages
  imageSkipPages := imageSkipPages
  load := load
  read := true
  cow := cow
  binaryMapping := binaryMapping
  mappings := []

def MemMapping.ending (m : MemMapping) : ℕ := wrap32 (m.pagenum + m.pages)

structure Process where
  mappings : List MemMapping
  tables : PageTables
  programBrk : ℕ

def Process.empty : Process := ⟨[], ⟨fun _ => none, fun _ => .zero⟩, 0⟩

/-! ## Map -/

def MemMapping.overlapEnd (m : MemMapping) (pagenum pages : ℕ) : ℕ :=
  if wrap32 (pagenum + pages) < m.ending then wrap32 (pagenum + pages) else m.ending

def MemMapping.overlapPage (m : MemMapping) (pagenum : ℕ) : ℕ :=
  if m.pagenum > pagenum then m.pagenum else pagenum

def checkMapOverlap (mappings : List MemMapping) (pagenum pages : ℕ) : Bool :=
  mappings.all fun m => !decide (m.overlapPage pagenum < m.overlapEnd pagenum pages)

def freshEntry (write execute : Bool) (_ : PageEntry) : PageEntry where
  present := false
  writeable := write
  userAccess := true
  executionDisabled := !execute
  pagePpn := 0

/-- What both forms of `Map` do with the mapping they have created. -/
def Process.addMapping (p : Process) (grants : Grants) (m : MemMapping)
    (func : PageEntry → PageEntry) : Bool × Process :=
  if checkMapOverlap p.mappings m.pagenum m.pages then
    match modifyRange grants func m.pagenum (m.pagenum + m.pages) p.tables with
    | .ok t => (true, { p with mappings := p.mappings ++ [m], tables := t })
    | .error t => (false, { p with mappings := p.mappings ++ [m], tables := t })
  else (false, p)

/-- `Map(image, pagenum, pages, image_skip_pages, load, write, execute, copyOnWrite, binaryMap)` -/
def Process.mapImage (p : Process) (grants : Grants) (image : Option ℕ)
    (pagenum pages imageSkipPages load : ℕ) (write execute copyOnWrite binaryMap : Bool) :
    Bool × Process :=
  p.addMapping grants
    (.create image pagenum pages imageSkipPages load (write && copyOnWrite) binaryMap)
    (freshEntry false execute)

def Process.map (p : Process) (grants : Grants) (pagenum pages : ℕ) (binaryMap : Bool) :
    Bool × Process :=
  p.addMapping grants (.create none pagenum pages 0 0 false binaryMap) (freshEntry true true)

/-! ## ClearRange -/

/-- What `ClearRange` makes of one mapping: what stays in its place, a second part behind the range,
the records that go to the release list, and the records of a mapping that is destroyed. -/
structure Cleared where
  kept : List MemMapping
  split : List MemMapping
  released : List PhysMapping
  destroyed : List PhysMapping

def MemMapping.clear (m : MemMapping) (pagenum pages : ℕ) : Cleared :=
  let overlapPage := m.overlapPage pagenum
  let overlapEnd := m.overlapEnd pagenum pages
  if overlapPage < overlapEnd then
    if m.pagenum < overlapPage then
      if m.ending > overlapEnd then
        { kept := [{ m with pages := overlapPage - m.pagenum
                            mappings := m.mappings.filter (·.page < overlapPage) }]
          split := [{ m with pages := m.pages - (overlapEnd - m.pagenum)
                             pagenum := overlapEnd
                             mappings := m.mappings.filter fun h =>
                               overlapPage ≤ h.page ∧ overlapEnd ≤ h.page }]
          released := m.mappings.filter fun h => overlapPage ≤ h.page ∧ h.page < overlapEnd
          destroyed := [] }
      else
        { kept := [{ m with pages := overlapPage - m.pagenum
                            mappings := m.mappings.filter (·.page < overlapPage) }]
          split := []
          released := m.mappings.filter (overlapPage ≤ ·.page)
          destroyed := [] }
    else if m.ending > overlapEnd then
      { kept := [{ m with pages := m.ending - overlapEnd
                          pagenum := overlapEnd
                          mappings := m.mappings.filter (overlapEnd ≤ ·.page) }]
        split := []
        released := m.mappings.filter (·.page < overlapEnd)
        destroyed := [] }
    else { kept := [], split := [], released := [], destroyed := m.mappings }
  else { kept := [m], split := [], released := [], destroyed := [] }

def Process.clearRange (p : Process) (pagenum pages : ℕ) : Process :=
  { p with mappings := p.mappings.flatMap (fun m => (m.clear pagenum pages).kept) ++
      p.mappings.flatMap fun m => (m.clear pagenum pages).split }

def Process.disableRange (p : Process) (grants : Grants) (pagenum pages : ℕ) : Process :=
  let disable := fun e : PageEntry => { e with present := false }
  { p with tables := tryModifyRange grants (fun _ => disable) pagenum (pagenum + pages) p.tables }

/-! ## Protect -/

/-- The protections that `Protect` tells apart. -/
inductive Prot where
  | none
  | read
  | readWrite
  | invalid
  deriving DecidableEq

def MemMapping.protStart (m : MemMapping) (pagenum : ℕ) : ℕ :=
  if m.pagenum < pagenum then pagenum else m.pagenum

def MemMapping.protEnd (m : MemMapping) (pagenum pages : ℕ) : ℕ :=
  if m.ending > wrap32 (pagenum + pages) then wrap32 (pagenum + pages) else m.ending

def MemMapping.isProtected (m : MemMapping) (pagenum pages : ℕ) : Bool :=
  m.protStart pagenum < m.protEnd pagenum pages

def MemMapping.splitBelow (m : MemMapping) (start : ℕ) : List MemMapping × MemMapping :=
  if start > m.pagenum then
    let size := start - m.pagenum
    let moved := fun h : PhysMapping => decide (m.pagenum ≤ h.page ∧ h.page < wrap32 (m.pagenum + size))
    ([{ m with pages := size, mappings := m.mappings.filter moved }],
      { m with pagenum := start
               pages := m.pages - size
               imageSkipPages :=
                 if m.image.isSome then wrap32 (m.imageSkipPages + size) else m.imageSkipPages
               mappings := m.mappings.filter fun h => !moved h })
  else ([], m)

def MemMapping.splitAbove (m : MemMapping) (ending : ℕ) : List MemMapping × MemMapping :=
  if ending < m.ending then
    let size1 := ending - m.pagenum
    let size2 := m.pages - size1
    let lower := wrap32 (m.pagenum + size1)
    let moved := fun h : PhysMapping => decide (lower ≤ h.page ∧ h.page < wrap32 (lower + size2))
    ([{ MemMapping.create m.image lower size2 (wrap32 (m.imageSkipPages + size1)) 0 m.cow
          m.binaryMapping with mappings := m.mappings.filter moved }],
      { m with pages := size1, mappings := m.mappings.filter fun h => !moved h })
  else ([], m)

/-- What the loop of `Protect` does to the entry of a page with the record `pmap`. -/
def protectEntry (prot : Prot) (pmap : Option PhysMapping) : Option (PageEntry → PageEntry) :=
  match prot, pmap with
  | .readWrite, some h =>
    if h.data.isSome || h.cow.isSome || h.physPage = 0 then none
    else some fun e => { e with executionDisabled := true, writeable := true }
  | .readWrite, none => some fun e => { e with executionDisabled := true, writeable := true }
  | .read, _ => some fun e => { e with executionDisabled := true, writeable := false }
  | .none, _ =>
    some fun e => { e with executionDisabled := true, writeable := false, present := false }
  | .invalid, _ => none

def MemMapping.physMapping (m : MemMapping) (page : ℕ) : Option PhysMapping :=
  m.mappings.find? (·.page = page)

def MemMapping.setProtection (m : MemMapping) (prot : Prot) : MemMapping :=
  match prot with
  | .readWrite =>
    { m with
      read := true
      cow := (List.range' m.pagenum (m.ending - m.pagenum)).any fun page =>
        (m.physMapping page).any fun h => h.data.isSome || h.cow.isSome }
  | .read => { m with read := true, cow := false }
  | .none => { m with read := false, cow := false }
  | .invalid => m

/-- One of the `prot_mappings`: the parts split off, and the part in the range. -/
def MemMapping.protectParts (m : MemMapping) (pagenum pages : ℕ) : List MemMapping × MemMapping :=
  let (below, inside) := m.splitBelow (m.protStart pagenum)
  let (above, inside) := inside.splitAbove (m.protEnd pagenum pages)
  (below ++ above, inside)

def protectTables (grants : Grants) (prot : Prot) (m : MemMapping) : PageTables → PageTables :=
  tryModifyRange grants (fun page => protectEntry prot (m.physMapping page)) m.pagenum m.ending

/-- The loop of `Protect` over the mappings: the mappings in their places, the new mappings, and
the tables.  An invalid protection leaves it after the first of the `prot_mappings`. -/
def protectLoop (grants : Grants) (pagenum pages : ℕ) (prot : Prot) :
    List MemMapping → PageTables → List MemMapping × List MemMapping × PageTables
  | [], t => ([], [], t)
  | m :: ms, t =>
    if m.isProtected pagenum pages then
      let (parts, inside) := m.protectParts pagenum pages
      if prot = .invalid then (inside :: ms, parts, t)
      else
        let (rest, later, t) :=
          protectLoop grants pagenum pages prot ms (protectTables grants prot inside t)
        (inside.setProtection prot :: rest, parts ++ later, t)
    else
      let (rest, later, t) := protectLoop grants pagenum pages prot ms t
      (m :: rest, later, t)

def covered (mappings : List MemMapping) (pagenum pages : ℕ) : ℕ :=
  mappings.foldl (fun n m =>
    if m.isProtected pagenum pages then wrap32 (n + (m.protEnd pagenum pages - m.protStart pagenum))
    else n) 0

def eINVAL : ℤ := 22

def Process.protect (p : Process) (grants : Grants) (pagenum pages : ℕ) (prot : Prot) :
    ℤ × Process :=
  if covered p.mappings pagenum pages < pages then (-eINVAL, p)
  else
    let (mappings, new, tables) := protectLoop grants pagenum pages prot p.mappings p.tables
    let met := p.mappings.any fun m => m.isProtected pagenum pages
    (if prot = .invalid ∧ met then -eINVAL else 0,
      { p with mappings := mappings ++ new, tables })

/-! ## The program break -/

def brkMapping (mappings : List MemMapping) : Option (MemMapping × ℕ) :=
  mappings.zipIdx.foldl (fun best mi =>
    if mi.1.binaryMapping then
      match best with
      | none => some mi
      | some b => if mi.1.ending > b.1.ending then some mi else some b
    else best) none

/-- The address that `brk` computes from the request, as a 64-bit word. -/
def Process.brkTarget (p : Process) (m : MemMapping) (brkAddr : ℤ) : ℕ :=
  let ending := (m.pagenum + m.pages) * 4096
  let addr := if ending - p.programBrk ≤ 4096 then p.programBrk else ending
  if brkAddr ≤ 0 then ((addr + brkAddr) % 2 ^ 64).toNat else (brkAddr % 2 ^ 64).toNat

/-- One turn of the loop that gives back the pages above the new break, with the records freed. -/
def shrinkTurn (grants : Grants) (p : ℕ) (s : PageTables × List PhysMapping × List PhysMapping) :
    Except (PageTables × List PhysMapping × List PhysMapping)
      (PageTables × List PhysMapping × List PhysMapping) :=
  let (t, records, freed) := s
  match t.modify grants (wrap32 p) fun e => { e with present := false } with
  | some t => .ok (t, records.filter (·.page ≠ p), freed ++ records.filter (·.page = p))
  | none => .error s

/-- What `brk` did: its result, the process, and the records it passed to `ppagefree`. -/
structure Broken where
  result : Option ℕ
  process : Process
  freed : List PhysMapping

/-- The part of `brk` that extends or shrinks the mapping `m` at place `i` to end at `page`. -/
def Process.brkTo (p : Process) (grants : Grants) (m : MemMapping) (i page addr : ℕ) : Broken :=
  let endpage := m.pagenum + m.pages
  let resized := { m with pages := wrap32 (page - m.pagenum) }
  if endpage = page then ⟨some addr, { p with programBrk := addr }, []⟩
  else if endpage < page then
    if checkMapOverlap p.mappings (wrap32 endpage) (wrap32 (page - endpage)) then
      match modifyRange grants (freshEntry true true) endpage page p.tables with
      | .ok t => ⟨some addr, ⟨p.mappings.set i resized, t, addr⟩, []⟩
      | .error t => ⟨none, { p with tables := t }, []⟩
    else ⟨none, p, []⟩
  else
    match forRange page endpage (shrinkTurn grants) (p.tables, m.mappings, []) with
    | .ok (t, records, freed) =>
      ⟨some addr, ⟨p.mappings.set i { resized with mappings := records }, t, addr⟩, freed⟩
    | .error (t, records, freed) =>
      ⟨none, { p with mappings := p.mappings.set i { m with mappings := records }, tables := t },
        freed⟩

def Process.brk (p : Process) (grants : Grants) (brkAddr : ℤ) : Broken :=
  match brkMapping p.mappings with
  | none => ⟨none, p, []⟩
  | some (m, i) =>
    let addr := p.brkTarget m brkAddr
    let page := addr / 4096 + if addr % 4096 ≠ 0 then 1 else 0
    if m.image.isSome then ⟨none, p, []⟩
    else if p.programBrk > (m.pagenum + m.pages) * 4096 then ⟨none, p, []⟩
    else if addr > 127 * 2 ^ 39 then ⟨none, p, []⟩
    else if (m.pagenum + m.pages) * 4096 ≤ 3 * 2 ^ 30 ∧ addr > 3 * 2 ^ 30 then ⟨none, p, []⟩
    else if m.pagenum ≥ page then ⟨none, p, []⟩
    else p.brkTo grants m i page addr

end JeoKernel.AddressSpace
