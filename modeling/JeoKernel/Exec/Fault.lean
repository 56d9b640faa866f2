import JeoKernel.Exec.AddressSpace

/-!
# Page faults and forks

The functions of `process.cpp` that load, copy and share physical pages: `sync_resolve_page`,
`resolve_page`, `resolve_write_page`, `WriteProtectCow` and `Clone`.  `alloc` is the answer of
`ppagealloc`, a page number, or 0 where there is no page.

`resolve_page` gives up its lock while it reads the file.  It is modelled in two parts, before and
after that; other calls may come between them.
-/

namespace JeoKernel.AddressSpace

variable [TableMemory]

/-! ## Finding the page -/

/-- The page of a fault address; addresses between the two parts of user space are refused. -/
def faultPage (addr : ℕ) : Option ℕ :=
  if addr < 2 ^ 43 ∧ 3 * 2 ^ 30 ≤ addr then none else some (wrap32 (addr / 4096))

def findMapping (mappings : List MemMapping) (page : ℕ) : Option (MemMapping × ℕ) :=
  mappings.zipIdx.find? fun mi => mi.1.pagenum ≤ page && page < mi.1.ending

/-- The entry that the walk from the address finds; the upper tables hold no page below 2^31. -/
def PageTables.walk (t : PageTables) (addr page : ℕ) : Option PageEntry :=
  if addr < 2 ^ 43 ∨ 2 ^ 31 ≤ page then t.pageentry page else none

def MemMapping.imagePage (m : MemMapping) (page : ℕ) : ℕ :=
  wrap32 (m.imageSkipPages + (page - m.pagenum))

def PageTables.setEntry (t : PageTables) (page : ℕ) (e : PageEntry) : PageTables :=
  { t with entry := Function.update t.entry page e }

/-! ## Loading a page -/

def loadedEntry (e : PageEntry) (data : Option ℕ) (physPage : ℕ) (cow : Bool) : PageEntry where
  present := true
  writeable := e.writeable || (e.executionDisabled && data.isNone && cow)
  userAccess := true
  executionDisabled := e.executionDisabled
  pagePpn := physPage

/-- The end of `sync_resolve_page` and `resolve_page` for a page that was not present. -/
def Process.install (p : Process) (m : MemMapping) (i page : ℕ) (e : PageEntry)
    (data : Option ℕ) (physPage : ℕ) (preExisting : Bool) : Process where
  mappings :=
    if preExisting then p.mappings
    else p.mappings.set i { m with mappings := m.mappings ++ [⟨data, none, physPage, page⟩] }
  tables := p.tables.setEntry page (loadedEntry e data physPage m.cow)
  programBrk := p.programBrk

/-- What a fault did: its result, the process, whether it kept the page from `ppagealloc`, and the
page whose `CowPageRef` it let go. -/
structure Fault (ρ : Type) where
  result : ρ
  process : Process
  took : Bool
  dropped : Option ℕ

/-! ## Copying a page -/

structure Copied where
  records : List PhysMapping
  entry : PageEntry → PageEntry
  dropped : Option ℕ

/-- The loop over the records that gives a page of the file cache or a shared page a private copy.
A page of the file cache is copied in a copy-on-write mapping only. -/
def copyRecord (cow : Bool) (page alloc : ℕ) : List PhysMapping → Option Copied
  | [] => none
  | h :: records =>
    if h.page = page ∧ h.data.isSome then
      if cow ∧ alloc ≠ 0 then
        some ⟨{ h with data := none, physPage := alloc } :: records,
          fun _ => ⟨true, true, true, true, alloc⟩, none⟩
      else none
    else if h.page = page ∧ h.cow.isSome then
      if alloc ≠ 0 then
        some ⟨{ h with cow := none, physPage := alloc } :: records,
          fun e => { e with pagePpn := alloc, writeable := true }, h.cow⟩
      else none
    else
      (copyRecord cow page alloc records).map fun c => { c with records := h :: c.records }

/-- The copy of a page that is present, where there is one to be made. -/
def Process.copyPage (p : Process) (m : MemMapping) (i page : ℕ) (e : PageEntry) (alloc : ℕ) :
    Option (Process × Option ℕ) :=
  (copyRecord m.cow page alloc m.mappings).map fun c =>
    (⟨p.mappings.set i { m with mappings := c.records }, p.tables.setEntry page (c.entry e),
      p.programBrk⟩, c.dropped)

/-! ## sync_resolve_page -/

/-- The page is not present: a page it has is entered again, and a page without an image is
allocated. -/
def Process.syncLoad (p : Process) (m : MemMapping) (i page : ℕ) (e : PageEntry) (alloc : ℕ) :
    Fault Bool :=
  let physPage := ((m.physMapping page).map (·.physPage)).getD 0
  let data := (m.physMapping page).bind (·.data)
  if physPage = 0 then
    if m.image.isSome ∨ alloc = 0 then ⟨false, p, false, none⟩
    else if data.isSome then ⟨false, p, true, none⟩
    else ⟨true, p.install m i page e none alloc false, true, none⟩
  else if m.image.isNone ∧ data.isSome then ⟨false, p, false, none⟩
  else ⟨true, p.install m i page e data physPage true, false, none⟩

def Process.syncResolvePage (p : Process) (addr alloc : ℕ) : Fault Bool :=
  match faultPage addr with
  | none => ⟨false, p, false, none⟩
  | some page =>
    match findMapping p.mappings page, p.tables.walk addr page with
    | some (m, i), some e =>
      if !m.read then ⟨false, p, false, none⟩
      else if e.present then
        match p.copyPage m i page e alloc with
        | none => ⟨false, p, false, none⟩
        | some (p, dropped) => ⟨true, p, true, dropped⟩
      else p.syncLoad m i page e alloc
    | _, _ => ⟨false, p, false, none⟩

/-! ## resolve_page -/

/-- What `resolve_page` remembers while it has no lock. -/
structure LoadRequest where
  addr : ℕ
  page : ℕ
  image : ℕ
  imagePage : ℕ
  load : ℕ
  deriving DecidableEq

/-- The first part of `resolve_page`: the page of the file that it has to read. -/
def Process.loadRequest (p : Process) (addr : ℕ) : Option LoadRequest :=
  match faultPage addr with
  | none => none
  | some page =>
    match findMapping p.mappings page, p.tables.walk addr page with
    | some (m, _), some e =>
      match m.image with
      | none => none
      | some image =>
        if !m.read ∨ e.present ∨ ((m.physMapping page).map (·.physPage)).getD 0 ≠ 0 then none
        else some ⟨addr, page, image, m.imagePage page, m.load⟩
    | _, _ => none

/-- What has been read: a page of the file cache, or a copy of one that the mapping loads in
part. -/
inductive Loaded where
  | file (n : ℕ)
  | copy (n : ℕ)
  deriving DecidableEq

def Loaded.physPage : Loaded → ℕ
  | .file n | .copy n => n

def Loaded.data : Loaded → Option ℕ
  | .file n => some n
  | .copy _ => none

/-- How the second part of `resolve_page` ends: the page is entered, or a copy is freed, or the page
had been entered by another thread and a copy is lost. -/
inductive LoadEnd where
  | installed
  | released
  | lost
  deriving DecidableEq

/-- The second part of `resolve_page`; `same` tells whether the mapping is still the object that it
was before. -/
def Process.finishLoad (p : Process) (r : LoadRequest) (loaded : Loaded) (same : Bool) :
    LoadEnd × Process :=
  match findMapping p.mappings r.page, p.tables.walk r.addr r.page with
  | some (m, i), some e =>
    if !same ∨ m.image ≠ some r.image ∨ m.imagePage r.page ≠ r.imagePage then (.released, p)
    else if e.present then (.lost, p)
    else (.installed, p.install m i r.page e loaded.data loaded.physPage false)
  | _, _ => (.released, p)

/-! ## resolve_write_page -/

inductive ResolveWrite where
  | error
  | wasWriteable
  | madeWriteable
  deriving DecidableEq

def Process.resolveWritePage (p : Process) (addr alloc : ℕ) : Fault ResolveWrite :=
  match faultPage addr with
  | none => ⟨.error, p, false, none⟩
  | some page =>
    match findMapping p.mappings page, p.tables.walk addr page with
    | some (m, i), some e =>
      if (!m.cow && m.image.isSome) ∨ !e.present then ⟨.error, p, false, none⟩
      else if e.writeable then ⟨.wasWriteable, p, false, none⟩
      else
        match p.copyPage m i page e alloc with
        | none => ⟨.error, p, false, none⟩
        | some (p, dropped) => ⟨.madeWriteable, p, true, dropped⟩
    | _, _ => ⟨.error, p, false, none⟩

/-! ## Clone -/

/-- The record in the parent after `WriteProtectCow`: a private page that could be written becomes
a shared one. -/
def PhysMapping.share (h : PhysMapping) (wasWriteable : Bool) : PhysMapping :=
  if wasWriteable && h.physPage ≠ 0 && h.data.isNone && h.cow.isNone then
    { h with cow := some h.physPage, physPage := 0 }
  else h

def PhysMapping.isCloned (h : PhysMapping) (wasWriteable : Bool) : Bool :=
  wasWriteable || h.data.isSome || h.cow.isSome

def protectWrite (e : PageEntry) : PageEntry := { e with writeable := false }

/-- The page could be written before `Pageentry` was called on it. -/
def PageTables.wasWriteable (t : PageTables) (grants : Grants) (page : ℕ) : Bool :=
  (t.modify grants page protectWrite).isSome && ((t.pageentry page).any (·.writeable))

structure Shared where
  tables : PageTables
  parent : List PhysMapping
  child : List PhysMapping

def shareRecords (grants : Grants) (t : PageTables) : List PhysMapping → Shared
  | [] => ⟨t, [], []⟩
  | h :: records =>
    let wasWriteable := t.wasWriteable grants h.page
    let rest := shareRecords grants (t.tryModify grants h.page (some protectWrite)) records
    ⟨rest.tables, h.share wasWriteable :: rest.parent,
      if h.isCloned wasWriteable then h.share wasWriteable :: rest.child else rest.child⟩

def writeProtectCow (grants : Grants) (t : PageTables) :
    List MemMapping → PageTables × List MemMapping × List MemMapping
  | [] => (t, [], [])
  | m :: ms =>
    let shared := shareRecords grants t m.mappings
    let rest := writeProtectCow grants shared.tables ms
    (rest.1, { m with mappings := shared.parent } :: rest.2.1,
      { m with mappings := shared.child } :: rest.2.2)

def copiedEntry (t : PageTables) (page : ℕ) : Option (PageEntry → PageEntry) :=
  (t.pageentry (wrap32 page)).map fun e _ => e

def cloneTables (grants : Grants) (source : PageTables) (mappings : List MemMapping)
    (t : PageTables) : PageTables :=
  mappings.foldl (fun t m =>
    tryModifyRange grants (copiedEntry source) m.pagenum (m.pagenum + m.pages) t) t

def Process.clone (p : Process) (grants childGrants : Grants) : Process × Process :=
  let (tables, parent, child) := writeProtectCow grants p.tables p.mappings
  (⟨parent, tables, p.programBrk⟩,
    ⟨child, cloneTables childGrants tables child Process.empty.tables, p.programBrk⟩)

end JeoKernel.AddressSpace
