import JeoKernel.Exec.Fault
import JeoKernel.Exec.MapRanges

/-!
# The mmap system call

`Mmap_Call::Call` with the search for a free area.  Addresses and lengths of the call are 64-bit
words; the functions of `Process` take their page numbers and page counts as 32-bit words.
-/

namespace JeoKernel.AddressSpace

open List Loop Process

/-! ## Free areas -/

structure MemoryArea where
  start : ℕ
  ending : ℕ
  deriving DecidableEq

def MemoryArea.length (a : MemoryArea) : ℕ := wrap32 (a.ending + 2 ^ 32 - a.start)

def MemoryArea.combine (a other : MemoryArea) : MemoryArea where
  start := if other.start > a.start then a.start else other.start
  ending := if other.ending < a.ending then a.ending else other.ending

def MemoryArea.overlaps (a other : MemoryArea) : Bool :=
  (a.combine other).length < wrap32 (a.length + other.length)

/-- The areas that a new area does not overlap, and the new area combined with the others. -/
def mergeArea (s : List MemoryArea × MemoryArea) (a : MemoryArea) : List MemoryArea × MemoryArea :=
  if a.overlaps s.2 then (s.1, a.combine s.2) else (s.1 ++ [a], s.2)

def insertArea (areas : List MemoryArea) (area : MemoryArea) : List MemoryArea :=
  let merged := areas.foldl mergeArea ([], area)
  merged.1.takeWhile (·.start ≤ merged.2.start) ++
    merged.2 :: merged.1.dropWhile (·.start ≤ merged.2.start)

def lowLim : ℕ := 2 ^ 31

def highLim : ℕ := 0xFFFFFFFF

def gaps : List MemoryArea → ℕ → List MemoryArea
  | [], start => if start < highLim then [⟨start, highLim⟩] else []
  | a :: areas, start =>
    (if a.start > start then [⟨start, a.start⟩] else []) ++
      gaps areas (if a.ending > start then a.ending else start)

def findFreeMemoryAreas (mappings : List MemMapping) : List MemoryArea :=
  gaps (mappings.foldl (fun areas m => insertArea areas ⟨m.pagenum, m.ending⟩) []) lowLim

def smallestArea (areas : List MemoryArea) (pages : ℕ) : Option MemoryArea :=
  areas.foldl (fun best a =>
    if a.ending - a.start ≥ pages then
      match best with
      | none => some a
      | some b => if b.ending - b.start > a.ending - a.start then some a else some b
    else best) none

def findFree (mappings : List MemMapping) (pages : ℕ) : ℕ :=
  match smallestArea (findFreeMemoryAreas mappings) pages with
  | none => 0
  | some a => a.ending - pages

def isInRange (pagenum pages : ℕ) : Bool := lowLim ≤ pagenum && pagenum + pages ≤ highLim

/-! ## The call -/

def eOPNOTSUPP : ℤ := 95
def eNOMEM : ℤ := 12
def eBADF : ℤ := 9
def ePERM : ℤ := 1

def protWrite : UInt32 := 2
def protExec : UInt32 := 4
def mapPrivate : UInt32 := 2
def mapFixed : UInt32 := 0x10
def mapAnonymous : UInt32 := 0x20
def mapTypeMask : UInt32 := 0xF

/-- What the call reads from the descriptor `fd`. -/
structure Descriptor where
  file : Option ℕ
  canRead : Bool

/-- The arguments; `desc` is the descriptor that `fd` names. -/
structure MmapArgs where
  addr : UInt64
  len : UInt64
  prot : UInt32
  flags : UInt32
  desc : Option Descriptor
  off : UInt64

namespace MmapArgs

variable (c : MmapArgs)

def fixed : Bool := c.flags &&& mapFixed ≠ 0

def anonymous : Bool := c.flags &&& mapAnonymous ≠ 0

def fullPages : ℕ := c.len.toNat / 4096

def pages : ℕ := c.fullPages + if c.fullPages * 4096 ≠ c.len.toNat then 1 else 0

def fileOffset : ℕ := c.off.toNat / 4096

end MmapArgs

section

variable [TableMemory]

/-- The page that the mapping will start at, or the error. -/
def Process.mmapPlace (p : Process) (grants : Grants) (c : MmapArgs) : Except ℤ (ℕ × Process) :=
  if !c.fixed then
    if findFree p.mappings (wrap32 c.pages) = 0 then .error (-eNOMEM)
    else .ok (findFree p.mappings (wrap32 c.pages), p)
  else if c.addr.toNat % 4096 ≠ 0 then .error (-eINVAL)
  else
    let vpageaddr := c.addr.toNat / 4096
    if !isInRange (wrap32 vpageaddr) (wrap32 c.pages) then .error (-eNOMEM)
    else .ok (vpageaddr, (p.clearRange (wrap32 vpageaddr) (wrap32 c.pages)).disableRange grants
      (wrap32 vpageaddr) (wrap32 c.pages))

/-- `Map` for a file, with the attributes that the call passes. -/
def Process.mmapImage (p : Process) (grants : Grants) (c : MmapArgs) (file pagenum pages : ℕ)
    (imageSkipPages load : ℕ) : Bool × Process :=
  p.mapImage grants (some file) (wrap32 pagenum) (wrap32 pages) (wrap32 imageSkipPages) load
    (c.prot &&& protWrite ≠ 0) (c.prot &&& protExec ≠ 0) (c.flags &&& mapPrivate ≠ 0) false

def Process.mmapFile (p : Process) (grants grants' : Grants) (c : MmapArgs) (file vpageaddr : ℕ) :
    Option ℤ × Process :=
  let first := p.mmapImage grants c file vpageaddr c.fullPages c.fileOffset 0
  if !first.1 then (some (-eNOMEM), first.2)
  else if c.fullPages = c.pages then (none, first.2)
  else
    let second := first.2.mmapImage grants' c file (vpageaddr + c.fullPages) 1
      (c.fileOffset + c.fullPages) (c.len.toNat % 4096)
    (if second.1 then none else some (-eNOMEM), second.2)

/-- The part of the call that makes the mappings; an error comes with what was done before it. -/
def Process.mmapInstall (p : Process) (grants grants' : Grants) (c : MmapArgs) (vpageaddr : ℕ) :
    Option ℤ × Process :=
  if c.anonymous then
    let mapped := p.map grants (wrap32 vpageaddr) (wrap32 c.pages) false
    (if mapped.1 then none else some (-eNOMEM), mapped.2)
  else
    match c.desc with
    | none => (some (-eBADF), p)
    | some desc =>
      if !desc.canRead then (some (-ePERM), p)
      else
        match desc.file with
        | none => (some (-eOPNOTSUPP), p)
        | some file =>
          if c.flags &&& mapPrivate = 0 then (some (-eOPNOTSUPP), p)
          else if c.off.toNat % 4096 ≠ 0 then (some (-eINVAL), p)
          else p.mmapFile grants grants' c file vpageaddr

/-- `Mmap_Call::Call`; `grants i` are the answers of the allocator of page tables during the call's
`DisableRange` and its two calls of `Map`. -/
def Process.mmap (p : Process) (grants : Fin 3 → Grants) (c : MmapArgs) : ℤ × Process :=
  if c.flags &&& mapTypeMask ≠ mapPrivate then (-eOPNOTSUPP, p)
  else
    match p.mmapPlace (grants 0) c with
    | .error e => (e, p)
    | .ok (vpageaddr, p) =>
      match p.mmapInstall (grants 1) (grants 2) c vpageaddr with
      | (some e, p) => (e, p)
      | (none, p) => (Int.bmod (vpageaddr * 4096 : ℕ) (2 ^ 64), p)

/-! ## What success should mean -/

def MmapArgs.file (c : MmapArgs) : Option ℕ := if c.anonymous then none else c.desc.bind (·.file)

/-- What the call leaves of the mappings that were there. -/
def MmapArgs.kept (c : MmapArgs) (p : Process) : List MemMapping :=
  if c.fixed then (p.clearRange (wrap32 (c.addr.toNat / 4096)) (wrap32 c.pages)).mappings
  else p.mappings

/-- Page `i` of the request lies in `m` and comes from page `i` of the requested part of the file. -/
def MmapArgs.Backs (c : MmapArgs) (m : MemMapping) (first i : ℕ) : Prop :=
  m.Contains (first + i) ∧
    ∀ file, c.file = some file → m.image = some file ∧ m.imagePage (first + i) = c.fileOffset + i

/-- The pages from the returned address on lie in mappings that the call has created, and no page
of a request without a fixed address was mapped before. -/
structure MmapMapped (p : Process) (c : MmapArgs) (answer : ℤ × Process) : Prop where
  backed : ∃ created, answer.2.mappings = c.kept p ++ created ∧
    ∀ i < c.pages, ∃ m ∈ created, c.Backs m (answer.1.toNat / 4096) i
  fresh : !c.fixed → ∀ i < c.pages, ∀ m ∈ p.mappings, ¬m.Contains (answer.1.toNat / 4096 + i)

/-- The 64-bit numbers of the call are not truncated, and no mapping that reaches page 2^32 is in
the way. -/
structure MmapExact (p : Process) (c : MmapArgs) : Prop where
  pages : c.pages < 2 ^ 32
  addr : c.fixed → c.pages = 0 ∨ c.addr.toNat / 4096 < 2 ^ 32
  offset : c.file.isSome → c.pages = 0 ∨ c.fileOffset + c.pages ≤ 2 ^ 32
  below : !c.fixed → ∀ m ∈ p.mappings, 2 ^ 32 ≤ m.pagenum + m.pages →
    ∀ i < c.pages, ¬m.Contains (findFree p.mappings c.pages + i)

/-- The fields of the mappings are 32-bit words. -/
def Process.Words (p : Process) : Prop := ∀ m ∈ p.mappings, m.pagenum < 2 ^ 32 ∧ m.pages < 2 ^ 32

end

/-! ## The search for a free area -/

variable {c : MmapArgs} {m : MemMapping} {ms : List MemMapping} {v : ℕ}

variable {areas : List MemoryArea}

theorem gaps_bounds {start : ℕ} (bound : ∀ a ∈ areas, a.start ≤ highLim) :
    ∀ a ∈ gaps areas start, start ≤ a.start ∧ a.start < a.ending ∧ a.ending ≤ highLim := by
  induction areas generalizing start with
  | nil =>
    intro a mem
    unfold gaps at mem
    split_ifs at mem with room
    · obtain rfl := mem_singleton.mp mem
      exact ⟨le_rfl, room, le_rfl⟩
    · simp at mem
  | cons b areas ih =>
    obtain ⟨here, rest⟩ := forall_mem_cons.mp bound
    intro a mem
    rcases mem_append.mp mem with gap | later
    · split_ifs at gap with room
      · obtain rfl := mem_singleton.mp gap
        exact ⟨le_rfl, room, here⟩
      · simp at gap
    · obtain ⟨low, nonempty, high⟩ := ih rest a later
      refine ⟨le_trans ?_ low, nonempty, high⟩
      split_ifs <;> omega

theorem mergeArea_bound {s : List MemoryArea × MemoryArea} {a : MemoryArea} {top : ℕ}
    (kept : ∀ a ∈ s.1, a.start ≤ top) (joined : s.2.start ≤ top) (here : a.start ≤ top) :
    (∀ b ∈ (mergeArea s a).1, b.start ≤ top) ∧ (mergeArea s a).2.start ≤ top := by
  unfold mergeArea
  generalize a.overlaps s.2 = overlaps
  cases overlaps with
  | true =>
    refine ⟨kept, ?_⟩
    simp only [if_true, MemoryArea.combine]
    split_ifs
    · exact here
    · exact joined
  | false => exact ⟨forall_mem_append.mpr ⟨kept, forall_mem_singleton.mpr here⟩, joined⟩

theorem insertArea_bound {area : MemoryArea} {top : ℕ} (bound : ∀ a ∈ areas, a.start ≤ top)
    (here : area.start ≤ top) :
    ∀ a ∈ insertArea areas area, a.start ≤ top := by
  obtain ⟨kept, joined⟩ := foldlRecOn (motive := fun s : List MemoryArea × MemoryArea =>
      (∀ a ∈ s.1, a.start ≤ top) ∧ s.2.start ≤ top) areas mergeArea
    (b := ([], area)) ⟨by simp, here⟩
    fun s earlier a mem => mergeArea_bound earlier.1 earlier.2 (bound a mem)
  intro a mem
  rcases mem_append.mp mem with before | rest
  · exact kept a (takeWhile_subset _ before)
  · rcases mem_cons.mp rest with rfl | behind
    · exact joined
    · exact kept a (dropWhile_subset _ behind)

theorem findFreeMemoryAreas_bounds (words : ∀ m ∈ ms, m.pagenum < 2 ^ 32) :
    ∀ a ∈ findFreeMemoryAreas ms, lowLim ≤ a.start ∧ a.start < a.ending ∧ a.ending ≤ highLim := by
  refine gaps_bounds ?_
  refine foldlRecOn (motive := fun areas : List MemoryArea => ∀ a ∈ areas, a.start ≤ highLim)
    ms _ (by simp) fun areas bound m mem => insertArea_bound bound ?_
  have word := words m mem
  unfold highLim
  dsimp only
  omega

def leastArea (key : MemoryArea → ℕ) (areas : List MemoryArea) (pages : ℕ) : Option MemoryArea :=
  areas.foldl (fun best a =>
    if a.ending - a.start ≥ pages then
      match best with
      | none => some a
      | some b => if key b > key a then some a else some b
    else best) none

theorem leastArea_spec (key : MemoryArea → ℕ) (areas : List MemoryArea) (pages : ℕ) :
    (leastArea key areas pages = none ∧ ∀ a ∈ areas, a.ending - a.start < pages) ∨
    ∃ b, leastArea key areas pages = some b ∧ b ∈ areas ∧ pages ≤ b.ending - b.start ∧
      ∀ a ∈ areas, pages ≤ a.ending - a.start → key b ≤ key a := by
  induction areas using reverseRecOn with
  | nil => exact .inl ⟨rfl, by simp⟩
  | append_singleton areas a ih =>
    unfold leastArea at ih ⊢
    rw [foldl_append, foldl_cons, foldl_nil]
    simp only [mem_append, mem_singleton, or_imp, forall_and, forall_eq]
    rcases ih with ⟨none, small⟩ | ⟨b, some, mem, fits, least⟩
    · rw [none]
      split_ifs with room
      · exact .inr ⟨a, rfl, .inr rfl, room, fun c mem fits => absurd (small c mem) (not_lt.mpr fits),
          fun _ => le_rfl⟩
      · exact .inl ⟨rfl, small, not_le.mp room⟩
    · rw [some]
      dsimp only
      split_ifs with room less
      · exact .inr ⟨a, rfl, .inr rfl, room, fun c mem fits => less.le.trans (least c mem fits),
          fun _ => le_rfl⟩
      · exact .inr ⟨b, rfl, .inl mem, fits, least, fun _ => not_lt.mp less⟩
      · exact .inr ⟨b, rfl, .inl mem, fits, least, fun fits => absurd fits room⟩

theorem smallestArea_room {pages : ℕ} {a : MemoryArea} (chosen : smallestArea areas pages = some a) :
    a ∈ areas ∧ pages ≤ a.ending - a.start := by
  rcases leastArea_spec (fun a => a.ending - a.start) areas pages with ⟨none, -⟩ |
    ⟨b, some, mem, room, -⟩
  · cases none.symm.trans chosen
  · cases some.symm.trans chosen
    exact ⟨mem, room⟩

theorem findFree_bounds {pages : ℕ} (words : ∀ m ∈ ms, m.pagenum < 2 ^ 32)
    (found : findFree ms pages ≠ 0) :
    lowLim ≤ findFree ms pages ∧ findFree ms pages + pages ≤ highLim := by
  unfold findFree at found ⊢
  cases chosen : smallestArea (findFreeMemoryAreas ms) pages with
  | none => simp [chosen] at found
  | some a =>
    obtain ⟨mem, room⟩ := smallestArea_room chosen
    obtain ⟨low, nonempty, high⟩ := findFreeMemoryAreas_bounds words a mem
    dsimp only
    omega

/-! ## Calls of Map that succeed -/

/-- `Map` has passed the check and has reached every page of the range. -/
structure Made (before : List MemMapping) (m : MemMapping) : Prop where
  check : checkMapOverlap before m.pagenum m.pages
  user : ∀ q, m.pagenum ≤ q → q < m.pagenum + m.pages → userPage (wrap32 q)

theorem Made.of_append {before later : List MemMapping} (made : Made (before ++ later) m) :
    Made before m := by
  refine ⟨?_, made.user⟩
  have check := made.check
  unfold checkMapOverlap at check ⊢
  rw [all_append, Bool.and_eq_true] at check
  exact check.1

open MmapArgs

section

variable [TableMemory] {p : Process} {grants : Grants} {func : PageEntry → PageEntry}

theorem modify_userPage {t t' : PageTables} {page : ℕ}
    (done : t.modify grants page func = some t') : userPage page := by
  unfold PageTables.modify PageTables.makeLeaf at done
  by_contra outside
  simp [outside] at done

theorem modifyRange_userPage (grants : Grants) (func : PageEntry → PageEntry) {lo hi : ℕ}
    (le : lo ≤ hi) (t : PageTables) :
    Post (fun _ => ∀ q, lo ≤ q → q < hi → userPage (wrap32 q)) (fun _ => True)
      (modifyRange grants func lo hi t) := by
  apply forRange_post (I := fun i _ => ∀ q, lo ≤ q → q < i → userPage (wrap32 q)) le
  · intro i t low high earlier
    split
    · next done =>
      intro q lower upper
      rcases Nat.lt_succ_iff_lt_or_eq.mp upper with before | rfl
      · exact earlier q lower before
      · exact modify_userPage done
    · trivial
  · omega

theorem addMapping_made (mapped : (p.addMapping grants m func).1) :
    (p.addMapping grants m func).2.mappings = p.mappings ++ [m] ∧ Made p.mappings m := by
  have reached := modifyRange_userPage grants func (Nat.le_add_right m.pagenum m.pages) p.tables
  revert mapped
  fun_cases addMapping p grants m func with intro mapped
  | case1 check t loop =>
    rw [loop] at reached
    exact ⟨rfl, check, reached⟩
  | _ => cases mapped

def MmapArgs.imagePart (c : MmapArgs) (file pagenum pages imageSkipPages load : ℕ) : MemMapping :=
  .create (some file) (wrap32 pagenum) (wrap32 pages) (wrap32 imageSkipPages) load
    ((c.prot &&& protWrite ≠ 0) && (c.flags &&& mapPrivate ≠ 0)) false

def MmapArgs.created (c : MmapArgs) (v : ℕ) : List MemMapping :=
  match c.file with
  | none => [.create none (wrap32 v) (wrap32 c.pages) 0 0 false false]
  | some file =>
    c.imagePart file v c.fullPages c.fileOffset 0 ::
      if c.fullPages = c.pages then []
      else [c.imagePart file (v + c.fullPages) 1 (c.fileOffset + c.fullPages) (c.len.toNat % 4096)]

def MmapArgs.freshEntry (c : MmapArgs) : PageEntry → PageEntry :=
  if c.file.isSome then AddressSpace.freshEntry false (c.prot &&& protExec ≠ 0)
  else AddressSpace.freshEntry true true

def MmapArgs.refuses (c : MmapArgs) : Bool :=
  !c.anonymous && match c.desc with
    | none => true
    | some desc =>
      !desc.canRead || desc.file.isNone || c.flags &&& mapPrivate = 0 || c.off.toNat % 4096 ≠ 0

/-- What the part of the call that makes the mappings can do: an error before it has changed anything,
one call of `Map`, or two of them for the whole pages and the last one. -/
inductive Installed (p : Process) (grants grants' : Grants) (c : MmapArgs) (v : ℕ) :
    Option ℤ × Process → Prop
  | refused {e : ℤ} (refuses : c.refuses) (negative : e < 0) : Installed p grants grants' c v (some e, p)
  | single {m : MemMapping} (accepts : ¬c.refuses) (created : c.created v = [m]) :
      Installed p grants grants' c v
        (if (p.addMapping grants m c.freshEntry).1 then none else some (-eNOMEM),
          (p.addMapping grants m c.freshEntry).2)
  | first {m m' : MemMapping} (accepts : ¬c.refuses) (created : c.created v = [m, m'])
      (failed : ¬(p.addMapping grants m c.freshEntry).1) :
      Installed p grants grants' c v (some (-eNOMEM), (p.addMapping grants m c.freshEntry).2)
  | second {m m' : MemMapping} (accepts : ¬c.refuses) (created : c.created v = [m, m'])
      (mapped : (p.addMapping grants m c.freshEntry).1) :
      Installed p grants grants' c v
        (if ((p.addMapping grants m c.freshEntry).2.addMapping grants' m' c.freshEntry).1 then none
          else some (-eNOMEM),
          ((p.addMapping grants m c.freshEntry).2.addMapping grants' m' c.freshEntry).2)

variable {grants' : Grants}

theorem mmapFile_installed {file : ℕ} (given : c.file = some file) (accepts : ¬c.refuses) :
    Installed p grants grants' c v (p.mmapFile grants grants' c file v) := by
  have image : ∀ (p : Process) (grants : Grants) (pagenum pages skip load : ℕ),
      p.mmapImage grants c file pagenum pages skip load =
        p.addMapping grants (c.imagePart file pagenum pages skip load) c.freshEntry := by
    intro p grants pagenum pages skip load
    unfold MmapArgs.freshEntry
    rw [given]
    rfl
  unfold mmapFile
  simp only [image]
  by_cases whole : c.fullPages = c.pages
  · have created : c.created v = [c.imagePart file v c.fullPages c.fileOffset 0] := by
      simp only [created, given, if_pos whole]
    have one : Installed p grants grants' c v _ := .single accepts created
    rw [if_pos whole]
    generalize p.addMapping grants (c.imagePart file v c.fullPages c.fileOffset 0) c.freshEntry = r
      at one ⊢
    obtain ⟨mapped, p'⟩ := r
    cases mapped <;> exact one
  · have created : c.created v = [c.imagePart file v c.fullPages c.fileOffset 0,
        c.imagePart file (v + c.fullPages) 1 (c.fileOffset + c.fullPages) (c.len.toNat % 4096)] := by
      simp only [created, given, if_neg whole]
    rw [if_neg whole]
    by_cases mapped :
        (p.addMapping grants (c.imagePart file v c.fullPages c.fileOffset 0) c.freshEntry).1
    · rw [if_neg (by simp [mapped])]
      exact .second accepts created mapped
    · rw [if_pos (by simp [mapped])]
      exact .first accepts created mapped

theorem mmapInstall_installed :
    Installed p grants grants' c v (p.mmapInstall grants grants' c v) := by
  fun_cases mmapInstall p grants grants' c v with
  | case1 anonymous =>
    have given : c.file = none := if_pos anonymous
    have created : c.created v = [.create none (wrap32 v) (wrap32 c.pages) 0 0 false false] := by
      simp only [created, given]
    have one : Installed p grants grants' c v _ :=
      .single (by simp [refuses, anonymous]) created
    simp only [MmapArgs.freshEntry, given] at one
    exact one
  | case2 anonymous fd => exact .refused (by simp [refuses, anonymous, fd]) (by decide)
  | case3 anonymous desc fd unreadable =>
    refine .refused ?_ (by decide)
    simp only [refuses, anonymous, fd, unreadable]
    rfl
  | case4 anonymous desc fd _ opened =>
    exact .refused (by simp [refuses, anonymous, fd, opened]) (by decide)
  | case5 anonymous desc fd _ file _ shared =>
    exact .refused (by simp [refuses, anonymous, fd, shared]) (by decide)
  | case6 anonymous desc fd _ file _ _ misaligned =>
    exact .refused (by simp [refuses, anonymous, fd, misaligned]) (by decide)
  | case7 anonymous desc fd _ file opened =>
    have given : c.file = some file := by simp [MmapArgs.file, anonymous, fd, opened]
    refine mmapFile_installed given ?_
    simp_all [refuses]

variable {r : Option ℤ × Process}

theorem Installed.error {e : ℤ} (h : Installed p grants grants' c v r) (failed : r.1 = some e) :
    e < 0 := by
  cases h with
  | refused _ negative =>
    cases failed
    exact negative
  | single | second =>
    split_ifs at failed
    cases failed
    decide
  | first =>
    cases failed
    decide

theorem Installed.created (h : Installed p grants grants' c v r) (done : r.1 = none) :
    r.2.mappings = p.mappings ++ c.created v ∧ ∀ m ∈ c.created v, Made p.mappings m := by
  cases h with
  | refused | first => cases done
  | single _ created =>
    split_ifs at done with mapped
    obtain ⟨mappings, made⟩ := addMapping_made mapped
    rw [created]
    exact ⟨mappings, forall_mem_singleton.mpr made⟩
  | second _ created first =>
    split_ifs at done with second
    obtain ⟨mappings, made⟩ := addMapping_made first
    obtain ⟨mappings', made'⟩ := addMapping_made second
    rw [created]
    refine ⟨mappings'.trans ?_, forall_mem_cons.mpr ⟨made, forall_mem_singleton.mpr ?_⟩⟩
    · exact (congrArg (· ++ _) mappings).trans (append_assoc _ _ _)
    · exact Made.of_append (mappings ▸ made')

/-! ## The answer of the call -/

/-- The page that the call has chosen, and what is left of the mappings. -/
structure Placed (p : Process) (c : MmapArgs) (v : ℕ) (p' : Process) : Prop where
  kept : p'.mappings = c.kept p
  fixed : c.fixed → v = c.addr.toNat / 4096
  found : !c.fixed → v = findFree p.mappings (wrap32 c.pages)
  low : lowLim ≤ wrap32 v
  high : wrap32 v + wrap32 c.pages ≤ highLim
  word : v < 2 ^ 52
  page : !c.fixed → v < 2 ^ 32

theorem mmapPlace_placed {p' : Process} (words : p.Words)
    (done : p.mmapPlace grants c = .ok (v, p')) : Placed p c v p' := by
  unfold mmapPlace at done
  by_cases fixed : c.fixed
  · simp only [fixed, Bool.not_true, Bool.false_eq_true, if_false] at done
    split_ifs at done with aligned range
    obtain ⟨rfl, rfl⟩ := Prod.mk.inj (Except.ok.inj done)
    have range : isInRange (wrap32 (c.addr.toNat / 4096)) (wrap32 c.pages) := by simpa using range
    simp only [isInRange, Bool.and_eq_true, decide_eq_true_eq] at range
    refine ⟨?_, fun _ => rfl, by simp [fixed], range.1, range.2, ?_, by simp [fixed]⟩
    · simp only [kept, fixed, if_true, disableRange]
    · have word := c.addr.toNat_lt
      omega
  · simp only [fixed, Bool.not_false, if_true] at done
    split_ifs at done with found
    obtain ⟨rfl, rfl⟩ := Prod.mk.inj (Except.ok.inj done)
    obtain ⟨low, high⟩ := findFree_bounds (fun m mem => (words m mem).1) found
    have page : findFree p.mappings (wrap32 c.pages) < 2 ^ 32 := by unfold highLim at high; omega
    have small := wrap32_eq page
    refine ⟨by simp [kept, fixed], by simp [fixed], fun _ => rfl, ?_, ?_, ?_, fun _ => page⟩
    · rwa [small]
    · rwa [small]
    · omega

theorem mmapPlace_error {e : ℤ} (failed : p.mmapPlace grants c = .error e) :
    e < 0 := by
  unfold mmapPlace at failed
  dsimp only at failed
  split_ifs at failed <;> cases failed <;> decide

/-- A call that does not fail returns the address of the page it has chosen, and has made its
mappings behind those that it left. -/
theorem mmap_success {grants : Fin 3 → Grants} (words : p.Words)
    (returned : 0 ≤ (p.mmap grants c).1) :
    ∃ v p', Placed p c v p' ∧ (p.mmap grants c).1.toNat / 4096 = v ∧
      (p.mmap grants c).2.mappings = c.kept p ++ c.created v ∧
      ∀ m ∈ c.created v, Made (c.kept p) m := by
  revert returned
  fun_cases mmap p grants c with intro returned
  | case1 => exact absurd (show 0 ≤ -eOPNOTSUPP from returned) (by decide)
  | case2 _ e place => exact absurd returned (Int.not_le.mpr (mmapPlace_error place))
  | case3 _ v p' place e p'' install =>
    exact absurd returned
      (Int.not_le.mpr (mmapInstall_installed.error (congrArg Prod.fst install)))
  | case4 _ v p' place p'' install =>
    have placed := mmapPlace_placed words place
    obtain ⟨mappings, made⟩ := mmapInstall_installed.created (congrArg Prod.fst install)
    rw [install] at mappings
    rw [placed.kept] at mappings made
    refine ⟨v, p', placed, ?_, mappings, made⟩
    have word := placed.word
    rw [Int.bmod_def] at returned ⊢
    split_ifs at returned ⊢ <;> omega

end

/-! ## Truncated numbers -/

/-- No range of user pages goes around the pages that belong to the kernel. -/
theorem narrow_of_userPage {first n : ℕ} (low : lowLim ≤ first) (word : first < 2 ^ 32)
    (user : ∀ q, first ≤ q → q < first + n → userPage (wrap32 q)) : n ≤ 2 ^ 32 - 2 := by
  by_contra wide
  unfold lowLim at low
  have kernel := user (2 ^ 32 + (2 ^ 31 - 2)) (by omega) (by omega)
  exact absurd kernel (by decide)

section

variable (low : lowLim ≤ wrap32 v)
  (user : ∀ m ∈ c.created v, ∀ q, m.pagenum ≤ q → q < m.pagenum + m.pages → userPage (wrap32 q))
include low user

/-- The mappings that are made leave out one of the pages of a very large request. -/
theorem created_narrow :
    ∃ n last, n ≤ 2 ^ 32 - 2 ∧ last < 2 ^ 32 ∧
      ∀ m ∈ c.created v, ∀ x, m.Contains x → x < wrap32 v + n ∨ x = last := by
  have word : wrap32 v < 2 ^ 32 := Nat.mod_lt _ (by decide)
  cases given : c.file with
  | none =>
    simp only [created, given, forall_mem_singleton] at user ⊢
    exact ⟨wrap32 c.pages, 0, narrow_of_userPage low word user, by decide,
      fun x inside => .inl inside.2⟩
  | some file =>
    simp only [created, given, forall_mem_cons] at user ⊢
    refine ⟨wrap32 c.fullPages, wrap32 (v + c.fullPages), narrow_of_userPage low word user.1,
      Nat.mod_lt _ (by decide), fun x inside => .inl inside.2, ?_⟩
    split_ifs
    · simp
    · rintro m mem x ⟨first, last⟩
      obtain rfl := mem_singleton.mp mem
      have one : wrap32 1 = 1 := rfl
      simp only [imagePart, MemMapping.create, one] at first last
      omega

theorem not_truncated
    (all : ∀ i < c.pages, ∃ m ∈ c.created v, m.Contains (v + i)) :
    c.pages < 2 ^ 32 ∧ (c.pages = 0 ∨ v < 2 ^ 32) := by
  obtain ⟨n, last, narrow, word, contains⟩ := created_narrow low user
  have reached : ∀ i < c.pages, v + i < wrap32 v + n ∨ v + i = last := fun i bound =>
    have ⟨m, mem, inside⟩ := all i bound
    contains m mem _ inside
  have le := wrap32_le v
  constructor
  · -- two pages behind the first range cannot both be the last one
    by_contra large
    have one := reached (2 ^ 32 - 2) (by omega)
    have other := reached (2 ^ 32 - 1) (by omega)
    omega
  · by_contra high
    have first := reached 0 (by omega)
    unfold wrap32 at first
    omega

end

theorem fullPages_cases (c : MmapArgs) : c.pages = c.fullPages ∨ c.pages = c.fullPages + 1 := by
  unfold pages
  split_ifs <;> omega

/-- Where nothing is truncated, the mappings that are made hold every page of the request. -/
theorem created_backs (below : v + c.pages < 2 ^ 32)
    (offset : c.file.isSome → c.fileOffset + c.pages ≤ 2 ^ 32) {i : ℕ} (bound : i < c.pages) :
    ∃ m ∈ c.created v, c.Backs m v i := by
  cases given : c.file with
  | none =>
    refine ⟨_, by simp only [created, given]; exact mem_singleton_self _, ?_, ?_⟩
    · simp only [MemMapping.Contains, MemMapping.create, wrap32]
      omega
    · simp [given]
  | some file =>
    have offset := offset (by simp [given])
    have count := fullPages_cases c
    by_cases full : i < c.fullPages
    · refine ⟨_, by simp only [created, given]; exact mem_cons_self, ?_, ?_⟩
      · simp only [MemMapping.Contains, imagePart, MemMapping.create, wrap32]
        omega
      · rintro _ same
        obtain rfl := Option.some.inj (given.symm.trans same)
        simp only [MemMapping.imagePage, imagePart, MemMapping.create, wrap32, true_and]
        omega
    · have partly : c.fullPages ≠ c.pages := by omega
      refine ⟨c.imagePart file (v + c.fullPages) 1 (c.fileOffset + c.fullPages)
        (c.len.toNat % 4096), by simp [created, given, partly], ?_, ?_⟩
      · simp only [MemMapping.Contains, imagePart, MemMapping.create, wrap32]
        omega
      · rintro _ same
        obtain rfl := Option.some.inj (given.symm.trans same)
        simp only [MemMapping.imagePage, imagePart, MemMapping.create, wrap32, true_and]
        omega

theorem created_range (below : v + c.pages < 2 ^ 32) (mem : m ∈ c.created v) :
    m.pagenum + m.pages < 2 ^ 32 := by
  have count := fullPages_cases c
  unfold created at mem
  split at mem
  · obtain rfl := mem_singleton.mp mem
    simp only [MemMapping.create, wrap32]
    omega
  · rcases mem_cons.mp mem with rfl | mem
    · simp only [imagePart, MemMapping.create, wrap32]
      omega
    · split_ifs at mem
      · simp at mem
      · obtain rfl := mem_singleton.mp mem
        simp only [imagePart, MemMapping.create, wrap32]
        omega

/-- A call that succeeds has mapped what it was asked for exactly where no number is truncated. -/
theorem mmapMapped_iff [TableMemory] (p : Process) (grants : Fin 3 → Grants) (c : MmapArgs)
    (words : p.Words)
    (returned : 0 ≤ (p.mmap grants c).1) :
    MmapMapped p c (p.mmap grants c) ↔ MmapExact p c := by
  obtain ⟨v, p', placed, first, mappings, made⟩ := mmap_success words returned
  have high := placed.high
  unfold highLim at high
  constructor
  · rintro ⟨⟨created, created_eq, backed⟩, fresh⟩
    obtain rfl : c.created v = created := append_cancel_left (mappings.symm.trans created_eq)
    rw [first] at backed fresh
    obtain ⟨small, page⟩ := not_truncated placed.low (fun m mem => (made m mem).user)
      fun i bound => (backed i bound).imp fun m => And.imp_right And.left
    refine ⟨small, fun fixed => placed.fixed fixed ▸ page, fun given => ?_, fun found m mem _ => ?_⟩
    · obtain ⟨file, given⟩ := Option.isSome_iff_exists.mp given
      rcases Nat.eq_zero_or_pos c.pages with none | some
      · exact .inl none
      · obtain ⟨m, -, -, last⟩ := backed (c.pages - 1) (by omega)
        have word : m.imagePage (v + (c.pages - 1)) < 2 ^ 32 := Nat.mod_lt _ (by decide)
        rw [(last file given).2] at word
        omega
    · have chosen := placed.found found
      rw [wrap32, Nat.mod_eq_of_lt small] at chosen
      exact fun i bound => chosen ▸ fresh found i bound m mem
  · rintro ⟨small, addr, offset, below⟩
    have pages : wrap32 c.pages = c.pages := Nat.mod_eq_of_lt small
    rcases Nat.eq_zero_or_pos c.pages with none | some
    · exact ⟨⟨_, mappings, fun i bound => by omega⟩, fun _ i bound => by omega⟩
    have page : v < 2 ^ 32 := by
      cases fixed : c.fixed with
      | true => exact placed.fixed fixed ▸ (addr fixed).resolve_left (by omega)
      | false => exact placed.page (by simp [fixed])
    have range : v + c.pages < 2 ^ 32 := by
      rw [pages, wrap32, Nat.mod_eq_of_lt page] at high
      omega
    have backs := fun i bound => created_backs range (fun given => (offset given).resolve_left
      (by omega)) (i := i) bound
    refine ⟨⟨_, mappings, fun i bound => first ▸ backs i bound⟩, fun found i bound m mem inside => ?_⟩
    rw [first] at inside
    by_cases ends : m.pagenum + m.pages < 2 ^ 32
    · obtain ⟨m', mem', contains, -⟩ := backs i bound
      have fixed : ¬c.fixed := by simpa using found
      have check := (made m' mem').check
      rw [kept, if_neg fixed] at check
      exact checkMapOverlap_apart (created_range range mem') check mem ends _ inside contains
    · have chosen := placed.found found
      rw [pages] at chosen
      exact below found m mem (not_lt.mp ends) i bound (chosen ▸ inside)

open FourGigabytes

def fileRequest : MmapArgs := ⟨0x80000000000, 8195, 3, 0x12, some ⟨some 7, true⟩, 4096⟩

theorem mmapMapped_file :
    (Process.empty.mmap (fun _ => allGranted) fileRequest).1 = 0x80000000000 ∧
      MmapMapped .empty fileRequest (Process.empty.mmap (fun _ => allGranted) fileRequest) := by
  have returned : (empty.mmap (fun _ => allGranted) fileRequest).1 = 0x80000000000 := by
    decide +kernel
  refine ⟨returned, (mmapMapped_iff .empty _ _ (by simp [Process.Words, empty]) ?_).mpr ?_⟩
  · decide
  · exact ⟨by decide, fun _ => .inr (by decide), fun _ => .inr (by decide),
      by simp [empty]⟩

def longRequest : MmapArgs := ⟨0, 0x100000001000, 3, 0x22, none, 0⟩

/-- The call maps one page and returns its address. -/
theorem not_mmapMapped_long :
    (Process.empty.mmap (fun _ => allGranted) longRequest).1 = 0xFFFFFFFE000 ∧
      ¬MmapMapped .empty longRequest (Process.empty.mmap (fun _ => allGranted) longRequest) := by
  have answer : (empty.mmap (fun _ => allGranted) longRequest).1 = 0xFFFFFFFE000 := by
    decide +kernel
  refine ⟨answer, fun mapped => ?_⟩
  obtain ⟨created, created_eq, backed⟩ := mapped.backed
  obtain ⟨m, mem, inside, -⟩ := backed 1 (by decide +kernel)
  obtain rfl : [_] = created := created_eq
  obtain rfl := mem_singleton.mp mem
  exact absurd inside.2 (by decide)

end JeoKernel.AddressSpace
