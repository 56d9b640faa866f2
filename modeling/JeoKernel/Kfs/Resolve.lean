import Mathlib.Data.List.TakeWhile
import JeoKernel.Lib.Cycles

/-!
# Path resolution

`kdirectory::Resolve` walks a path one component at a time.  Where a component that is not the last
one is a symbolic link, `ksymlink::Resolve` resolves the target of the link by a new call of
`kdirectory::Resolve`.  The budget `resolveSymlinks` belongs to one walk: the walk along a target
starts with a budget of its own.

A walk ends if and only if no link that it follows leads, through the links that are followed while
targets are resolved, to a link that leads back to itself.
-/

namespace JeoKernel.Kfs

open List Relation Cycles

/-! ## The code -/

abbrev Text := List Char

/-- The part of a text that `c_str()` shows. -/
def cStr (text : Text) : Text := text.takeWhile (· ≠ Char.ofNat 0)

inductive Status where
  | success
  | ioError
  | notDirectory
  deriving DecidableEq

/-- What a directory entry loads; an entry that does not load is `none` in the listing. -/
inductive Item (ι : Type*) where
  | file
  /-- The listing of the file system, if it can be read. -/
  | directory (parent : Option ι) (listing : Option (List (Text × Option ι)))
  | symlink (parent : ι) (link : Text)
  deriving DecidableEq

def Item.isDirectory {ι : Type*} : Item ι → Bool
  | .directory _ _ => true
  | _ => false

structure Tree (ι : Type*) where
  item : ι → Item ι

structure Result (ι : Type*) where
  result : Option ι
  status : Status
  deriving DecidableEq

/-- A call of `kdirectory::Resolve`. -/
structure Call (ι : Type*) where
  dir : ι
  filename : Text
  resolveSymlinks : ℕ
  deriving DecidableEq

/-- The first component, and what follows behind the slashes. -/
def splitComponent (filename : Text) : Text × Text :=
  (filename.takeWhile (· ≠ '/'), cStr ((filename.dropWhile (· ≠ '/')).dropWhile (· = '/')))

theorem splitComponent_lt {filename : Text} (nonempty : filename ≠ []) :
    (splitComponent filename).2.length < filename.length := by
  obtain ⟨c, rest, rfl⟩ := exists_cons_of_ne_nil nonempty
  have cut := (takeWhile_sublist (· ≠ Char.ofNat 0)
    (l := ((c :: rest).dropWhile (· ≠ '/')).dropWhile (· = '/'))).length_le
  refine Nat.lt_of_le_of_lt cut ?_
  by_cases slash : c = '/'
  · -- the slash is what the second loop drops
    have dropped := (dropWhile_sublist (· = '/') (l := rest)).length_le
    simp only [dropWhile_cons, slash, ne_eq, not_true, decide_false, decide_true, if_true,
      Bool.false_eq_true, if_false, length_cons]
    omega
  · have dropped := (dropWhile_sublist (· ≠ '/') (l := rest)).length_le
    have dropped' := (dropWhile_sublist (· = '/') (l := rest.dropWhile (· ≠ '/'))).length_le
    rw [dropWhile_cons_of_pos (by simpa using slash), length_cons]
    omega

/-- The loop that skips the components `.` before the last one. -/
def nextComponent (filename : Text) : Option (Text × Text) :=
  if _ : filename = [] then none
  else
    let found := splitComponent filename
    if found.1 = ['.'] ∧ found.2 ≠ [] then nextComponent found.2 else some found
termination_by filename.length
decreasing_by exact splitComponent_lt (by assumption)

variable {ι : Type*}

def Tree.entries (t : Tree ι) (dir : ι) : Option (List (Text × Option ι)) :=
  match t.item dir with
  | .directory parent listing =>
    listing.map fun entries =>
      (['.'], some dir) :: (['.', '.'], some (parent.getD dir)) ::
        entries.filter fun entry => entry.1 ≠ ['.', '.'] ∧ entry.1 ≠ ['.']
  | _ => none

/-- What a call finds before it follows a link or goes on. -/
inductive Look (ι : Type*) where
  | done (r : Result ι)
  | found (file : ι) (remaining : Text)

/-- The search for the component in the entries of a directory. -/
def Tree.lookFor (t : Tree ι) (dir : ι) (component remaining : Text) : Look ι :=
  match t.entries dir with
  | none => .done ⟨none, .ioError⟩
  | some entries =>
    match entries.find? (·.1 = component) with
    | none | some (_, none) => .done ⟨none, .success⟩
    | some (_, some file) =>
      if remaining = [] then .done ⟨some file, .success⟩ else .found file remaining

def Tree.look (t : Tree ι) (c : Call ι) : Look ι :=
  if c.filename = [] ∨ c.filename.head? = some '/' then .done ⟨none, .success⟩
  else
    match nextComponent c.filename with
    | none => .done ⟨none, .success⟩
    | some (component, remaining) => t.lookFor c.dir component remaining

/-- The call of `ksymlink::Resolve` for the target of a link.  There is none for an absolute target
without a root. -/
def target (root : Option ι) (parent : ι) (link : Text) : Option (Call ι) :=
  if link.head? = some '/' then root.map (⟨·, link.dropWhile (· = '/'), 20⟩)
  else some ⟨parent, link, 20⟩

/-- A result that is no file is returned as it is. -/
def andThen : Option (Result ι) → (ι → Option (Result ι)) → Option (Result ι)
  | some ⟨some file, .success⟩, next => next file
  | other, _ => other

/-- The loop over the links that the component leads to, and then the rest of the path. -/
def Tree.enter (t : Tree ι) (root : Option ι) (resolve : Call ι → Option (Result ι))
    (remaining : Text) : ℕ → ι → Option (Result ι)
  | resolveSymlinks, file =>
    match t.item file, resolveSymlinks with
    | .symlink parent link, n + 1 =>
      match target root parent link with
      | none => some ⟨none, .success⟩
      | some c => andThen (resolve c) fun file => t.enter root resolve remaining n file
    | .directory _ _, n => resolve ⟨file, remaining, n⟩
    | _, _ => some ⟨none, .notDirectory⟩

/-- `kdirectory::Resolve`, with at most `fuel` calls inside of each other. -/
def Tree.resolve (t : Tree ι) (root : Option ι) : ℕ → Call ι → Option (Result ι)
  | 0, _ => none
  | fuel + 1, c =>
    match t.look c with
    | .done r => some r
    | .found file remaining =>
      t.enter root (t.resolve root fuel) remaining c.resolveSymlinks file

/-! ## What is claimed -/

def Tree.Ends (t : Tree ι) (root : Option ι) (c : Call ι) : Prop :=
  ∃ fuel r, t.resolve root fuel c = some r

/-! ## What a path names -/

/-- A walk: in front of a path, or at an item with the rest of the path and of the budget. -/
inductive Walk (ι : Type*) where
  | call (c : Call ι)
  | arrived (resolveSymlinks : ℕ) (file : ι) (remaining : Text)

inductive Names (t : Tree ι) (root : Option ι) : Walk ι → Result ι → Prop
  | done {c r} : t.look c = .done r → Names t root (.call c) r
  | found {c file remaining r} : t.look c = .found file remaining →
      Names t root (.arrived c.resolveSymlinks file remaining) r → Names t root (.call c) r
  /-- An absolute target, and no root. -/
  | nowhere {n file parent link remaining} :
      t.item file = .symlink parent link → target root parent link = none →
      Names t root (.arrived (n + 1) file remaining) ⟨none, .success⟩
  /-- The target names nothing. -/
  | broken {n file parent link remaining c r} :
      t.item file = .symlink parent link → target root parent link = some c →
      Names t root (.call c) r → (∀ file', r ≠ ⟨some file', .success⟩) →
      Names t root (.arrived (n + 1) file remaining) r
  | link {n file parent file' link remaining c r} :
      t.item file = .symlink parent link → target root parent link = some c →
      Names t root (.call c) ⟨some file', .success⟩ → Names t root (.arrived n file' remaining) r →
      Names t root (.arrived (n + 1) file remaining) r
  | directory {n file remaining r} :
      (t.item file).isDirectory → Names t root (.call ⟨file, remaining, n⟩) r →
      Names t root (.arrived n file remaining) r
  | other {n file remaining} :
      ¬(t.item file).isDirectory → (∀ parent link, t.item file = .symlink parent link → n = 0) →
      Names t root (.arrived n file remaining) ⟨none, .notDirectory⟩

inductive Follows (t : Tree ι) (root : Option ι) : Walk ι → ι → Prop
  | found {c file l remaining} : t.look c = .found file remaining →
      Follows t root (.arrived c.resolveSymlinks file remaining) l → Follows t root (.call c) l
  | here {n file parent link remaining} :
      t.item file = .symlink parent link → Follows t root (.arrived (n + 1) file remaining) file
  | link {n file parent file' l link remaining c} :
      t.item file = .symlink parent link → target root parent link = some c →
      Names t root (.call c) ⟨some file', .success⟩ →
      Follows t root (.arrived n file' remaining) l →
      Follows t root (.arrived (n + 1) file remaining) l
  | directory {n file l remaining} :
      (t.item file).isDirectory → Follows t root (.call ⟨file, remaining, n⟩) l →
      Follows t root (.arrived n file remaining) l

/-- The second link is followed while the target of the first one is resolved. -/
def Leads (t : Tree ι) (root : Option ι) (l l' : ι) : Prop :=
  ∃ parent link c, t.item l = .symlink parent link ∧ target root parent link = some c ∧
    Follows t root (.call c) l'

/-- No link that the call follows comes to a link that leads back to itself. -/
def Tree.NoCycle (t : Tree ι) (root : Option ι) (c : Call ι) : Prop :=
  ∀ l, Follows t root (.call c) l → ¬ComesBack (Leads t root) l

variable {t : Tree ι} {root : Option ι} {resolve resolve' : Call ι → Option (Result ι)}
  {remaining : Text} {n : ℕ} {file parent : ι} {link : Text} {c : Call ι} {r : Result ι}

/-! ## One turn of the loop -/

open Kfs.Tree

theorem enter_nowhere (is_link : t.item file = .symlink parent link)
    (no_target : target root parent link = none) :
    t.enter root resolve remaining (n + 1) file = some ⟨none, .success⟩ := by
  unfold enter
  simp only [is_link, no_target]

theorem enter_link (is_link : t.item file = .symlink parent link)
    (to_target : target root parent link = some c) :
    t.enter root resolve remaining (n + 1) file =
      andThen (resolve c) (t.enter root resolve remaining n) := by
  conv_lhs => unfold enter
  simp only [is_link, to_target]

theorem enter_directory (is_directory : (t.item file).isDirectory) :
    t.enter root resolve remaining n file = resolve ⟨file, remaining, n⟩ := by
  unfold enter
  cases found : t.item file with
  | directory parent listing => rfl
  | file | symlink parent link => simp [Item.isDirectory, found] at is_directory

theorem enter_other (no_directory : ¬(t.item file).isDirectory)
    (no_link : ∀ parent link, t.item file = .symlink parent link → n = 0) :
    t.enter root resolve remaining n file = some ⟨none, .notDirectory⟩ := by
  unfold enter
  cases found : t.item file with
  | directory parent listing => simp [Item.isDirectory, found] at no_directory
  | file => rfl
  | symlink parent link =>
    obtain rfl := no_link parent link found
    rfl

/-- The item is a link that is followed, a directory, or the end of the walk. -/
theorem item_induction {motive : ℕ → ι → Prop} (n : ℕ) (file : ι)
    (link : ∀ n file parent link, t.item file = .symlink parent link → (∀ file, motive n file) →
      motive (n + 1) file)
    (directory : ∀ n file, (t.item file).isDirectory → motive n file)
    (other : ∀ n file, ¬(t.item file).isDirectory →
      (∀ parent link, t.item file = .symlink parent link → n = 0) → motive n file) :
    motive n file := by
  induction n generalizing file with
  | zero =>
    by_cases is_directory : (t.item file).isDirectory
    · exact directory 0 file is_directory
    · exact other 0 file is_directory fun _ _ _ => rfl
  | succ n ih =>
    cases found : t.item file with
    | directory parent listing => exact directory _ file (by rw [found]; rfl)
    | file => exact other _ file (by simp [Item.isDirectory, found]) (by simp [found])
    | symlink parent target => exact link n file parent target found ih

theorem andThen_eq_some {x : Option (Result ι)} {next : ι → Option (Result ι)} :
    andThen x next = some r ↔
      (∃ file, x = some ⟨some file, .success⟩ ∧ next file = some r) ∨
        x = some r ∧ ∀ file, r ≠ ⟨some file, .success⟩ := by
  unfold andThen
  split
  · next file =>
    constructor
    · exact fun taken => .inl ⟨file, rfl, taken⟩
    · rintro (⟨file', same, taken⟩ | ⟨same, other⟩)
      · cases same
        exact taken
      · exact absurd (Option.some.inj same).symm (other file)
  · next other =>
    constructor
    · exact fun same => .inr ⟨same, fun file is => other file (is ▸ same)⟩
    · rintro (⟨file, same, -⟩ | ⟨same, -⟩)
      · exact absurd same (other file)
      · exact same

/-! ## The code comes to what the path names -/

/-- What a walk returns, with at most `fuel` calls inside of it. -/
def Walk.run (t : Tree ι) (root : Option ι) (fuel : ℕ) : Walk ι → Option (Result ι)
  | .call c => t.resolve root (fuel + 1) c
  | .arrived n file remaining => t.enter root (t.resolve root fuel) remaining n file

theorem enter_mono (more : ∀ c r, resolve c = some r → resolve' c = some r)
    (taken : t.enter root resolve remaining n file = some r) :
    t.enter root resolve' remaining n file = some r := by
  induction n, file using item_induction (t := t) with
  | link n file parent link is_link ih =>
    cases to_target : target root parent link with
    | none => rwa [enter_nowhere is_link to_target] at taken ⊢
    | some c =>
      rw [enter_link is_link to_target, andThen_eq_some] at taken ⊢
      rcases taken with ⟨file', returned, taken⟩ | ⟨returned, other⟩
      · exact .inl ⟨file', more _ _ returned, ih file' taken⟩
      · exact .inr ⟨more _ _ returned, other⟩
  | directory n file is_directory =>
    rw [enter_directory is_directory] at taken ⊢
    exact more _ _ taken
  | other n file no_directory no_link => rwa [enter_other no_directory no_link] at taken ⊢

variable {fuel : ℕ}

theorem resolve_succ (returned : t.resolve root fuel c = some r) :
    t.resolve root (fuel + 1) c = some r := by
  induction fuel generalizing c r with
  | zero => simp [resolve] at returned
  | succ fuel ih =>
    unfold resolve at returned ⊢
    cases looked : t.look c with
    | done r' => simpa [looked] using returned
    | found file remaining =>
      simp only [looked] at returned ⊢
      exact enter_mono (fun _ _ => ih) returned

variable {fuel' : ℕ}

theorem resolve_mono (le : fuel ≤ fuel') (returned : t.resolve root fuel c = some r) :
    t.resolve root fuel' c = some r := by
  induction le with
  | refl => exact returned
  | step _ ih => exact resolve_succ ih

variable {w : Walk ι}

theorem run_mono (le : fuel ≤ fuel') (returned : w.run t root fuel = some r) :
    w.run t root fuel' = some r := by
  cases w with
  | call c => exact resolve_mono (Nat.succ_le_succ le) returned
  | arrived n file remaining => exact enter_mono (fun _ _ => resolve_mono le) returned

theorem resolve_unique {r' : Result ι} (returned : t.resolve root fuel c = some r)
    (returned' : t.resolve root fuel' c = some r') : r = r' := by
  have first := resolve_mono (le_max_left fuel fuel') returned
  have second := resolve_mono (le_max_right fuel fuel') returned'
  exact Option.some.inj (first.symm.trans second)

theorem run_call_found (looked : t.look c = .found file remaining) :
    (Walk.call c).run t root fuel = (Walk.arrived c.resolveSymlinks file remaining).run t root fuel := by
  simp only [Walk.run, resolve, looked]

theorem run_of_names (names : Names t root w r) : ∃ fuel, w.run t root fuel = some r := by
  induction names with
  | done looked => exact ⟨0, by simp only [Walk.run, resolve, looked]⟩
  | found looked _ ih =>
    obtain ⟨fuel, returned⟩ := ih
    exact ⟨fuel, run_call_found looked ▸ returned⟩
  | nowhere is_link to_target => exact ⟨0, enter_nowhere is_link to_target⟩
  | broken is_link to_target _ other ih =>
    obtain ⟨fuel, returned⟩ := ih
    refine ⟨fuel + 1, ?_⟩
    rw [Walk.run, enter_link is_link to_target, andThen_eq_some]
    exact .inr ⟨returned, other⟩
  | link is_link to_target _ _ ih ih' =>
    obtain ⟨fuel, returned⟩ := ih
    obtain ⟨fuel', rest⟩ := ih'
    refine ⟨max (fuel + 1) fuel', ?_⟩
    rw [Walk.run, enter_link is_link to_target, andThen_eq_some]
    exact .inl ⟨_, resolve_mono (le_max_left _ _) returned, run_mono (le_max_right _ _) rest⟩
  | directory is_directory _ ih =>
    obtain ⟨fuel, returned⟩ := ih
    exact ⟨fuel + 1, (enter_directory is_directory).trans returned⟩
  | other no_directory no_link => exact ⟨0, enter_other no_directory no_link⟩

theorem names_of_enter (calls : ∀ c r, resolve c = some r → Names t root (.call c) r)
    (taken : t.enter root resolve remaining n file = some r) :
    Names t root (.arrived n file remaining) r := by
  induction n, file using item_induction (t := t) with
  | link n file parent link is_link ih =>
    cases to_target : target root parent link with
    | none =>
      rw [enter_nowhere is_link to_target] at taken
      exact Option.some.inj taken ▸ .nowhere is_link to_target
    | some c =>
      rw [enter_link is_link to_target, andThen_eq_some] at taken
      rcases taken with ⟨file', returned, taken⟩ | ⟨returned, other⟩
      · exact .link is_link to_target (calls _ _ returned) (ih file' taken)
      · exact .broken is_link to_target (calls _ _ returned) other
  | directory n file is_directory =>
    rw [enter_directory is_directory] at taken
    exact .directory is_directory (calls _ _ taken)
  | other n file no_directory no_link =>
    rw [enter_other no_directory no_link] at taken
    exact Option.some.inj taken ▸ .other no_directory no_link

theorem names_of_resolve (returned : t.resolve root fuel c = some r) :
    Names t root (.call c) r := by
  induction fuel generalizing c r with
  | zero => simp [resolve] at returned
  | succ fuel ih =>
    unfold resolve at returned
    cases looked : t.look c with
    | done r' =>
      simp only [looked] at returned
      exact Option.some.inj returned ▸ .done looked
    | found file remaining =>
      simp only [looked] at returned
      exact .found looked (names_of_enter (fun _ _ => ih) returned)

theorem ends_iff_names : t.Ends root c ↔ ∃ r, Names t root (.call c) r := by
  constructor
  · rintro ⟨fuel, r, returned⟩
    exact ⟨r, names_of_resolve returned⟩
  · rintro ⟨r, names⟩
    obtain ⟨fuel, returned⟩ := run_of_names names
    exact ⟨fuel + 1, r, returned⟩

/-! ## Links -/

def Linked (t : Tree ι) (root : Option ι) (fuel : ℕ) (l : ι) : Prop :=
  ∀ parent link c, t.item l = .symlink parent link → target root parent link = some c →
    ∃ r, t.resolve root fuel c = some r

variable {l : ι}

theorem Linked.mono (le : fuel ≤ fuel') (linked : Linked t root fuel l) :
    Linked t root fuel' l := by
  intro parent link c is_link to_target
  obtain ⟨r, returned⟩ := linked parent link c is_link to_target
  exact ⟨r, resolve_mono le returned⟩

/-- A walk that returns has returned from the links that it follows. -/
theorem Follows.linked (follows : Follows t root w l) (returned : w.run t root fuel = some r) :
    Linked t root fuel l := by
  induction follows generalizing fuel with
  | found looked _ ih => exact ih (run_call_found looked ▸ returned)
  | here is_link =>
    intro parent link c is_link' to_target
    rw [Walk.run, enter_link is_link' to_target, andThen_eq_some] at returned
    rcases returned with ⟨file', returned, -⟩ | ⟨returned, -⟩
    · exact ⟨_, returned⟩
    · exact ⟨_, returned⟩
  | link is_link to_target names _ ih =>
    obtain ⟨fuel', found⟩ := run_of_names names
    rw [Walk.run, enter_link is_link to_target, andThen_eq_some] at returned
    rcases returned with ⟨file', first, rest⟩ | ⟨first, other⟩
    · cases resolve_unique found first
      exact ih rest
    · cases resolve_unique found first
      exact absurd rfl (other _)
  | directory is_directory _ ih =>
    cases fuel with
    | zero => simp [Walk.run, enter_directory is_directory, resolve] at returned
    | succ fuel =>
      exact (ih ((enter_directory is_directory).symm.trans returned)).mono (Nat.le_succ fuel)

theorem Linked.acc (linked : Linked t root fuel l) : Acc (flip (Leads t root)) l := by
  induction fuel generalizing l with
  | zero =>
    refine ⟨l, ?_⟩
    rintro l' ⟨parent, link, c, is_link, to_target, -⟩
    obtain ⟨r, returned⟩ := linked parent link c is_link to_target
    simp [resolve] at returned
  | succ fuel ih =>
    refine ⟨l, ?_⟩
    rintro l' ⟨parent, link, c, is_link, to_target, follows⟩
    obtain ⟨r, returned⟩ := linked parent link c is_link to_target
    exact ih (follows.linked returned)

/-! ## Walks that follow links that return -/

theorem nextComponent_lt {filename component remaining : Text}
    (next : nextComponent filename = some (component, remaining)) :
    remaining.length < filename.length := by
  fun_induction nextComponent filename with
  | case1 => cases next
  | case2 filename nonempty found dot ih => exact (ih next).trans (splitComponent_lt nonempty)
  | case3 filename nonempty found dot =>
    have shorter : found.2.length < filename.length := splitComponent_lt nonempty
    rwa [Option.some.inj next] at shorter

theorem lookFor_found {dir : ι} {component rest : Text}
    (looked : t.lookFor dir component rest = .found file remaining) : rest = remaining := by
  revert looked
  fun_cases t.lookFor dir component rest with rintro ⟨⟩
  | case5 => rfl

theorem look_found_lt (looked : t.look c = .found file remaining) :
    remaining.length < c.filename.length := by
  revert looked
  fun_cases t.look c with intro looked
  | case3 _ component rest next => exact lookFor_found looked ▸ nextComponent_lt next
  | _ => cases looked

def Resolves (t : Tree ι) (root : Option ι) (l : ι) : Prop :=
  ∀ parent link c, t.item l = .symlink parent link → target root parent link = some c →
    ∃ r, Names t root (.call c) r

theorem names_arrived
    (calls : ∀ n file, (∀ l, Follows t root (.call ⟨file, remaining, n⟩) l → Resolves t root l) →
      ∃ r, Names t root (.call ⟨file, remaining, n⟩) r)
    (links : ∀ l, Follows t root (.arrived n file remaining) l → Resolves t root l) :
    ∃ r, Names t root (.arrived n file remaining) r := by
  induction n, file using item_induction (t := t) with
  | link n file parent link is_link ih =>
    cases to_target : target root parent link with
    | none => exact ⟨_, .nowhere is_link to_target⟩
    | some c =>
      obtain ⟨r, names⟩ := links file (.here is_link) parent link c is_link to_target
      by_cases is_file : ∃ file', r = ⟨some file', .success⟩
      · obtain ⟨file', rfl⟩ := is_file
        obtain ⟨r, rest⟩ := ih file' fun l follows => links l (.link is_link to_target names follows)
        exact ⟨r, .link is_link to_target names rest⟩
      · exact ⟨r, .broken is_link to_target names fun file' same => is_file ⟨file', same⟩⟩
  | directory n file is_directory =>
    obtain ⟨r, names⟩ := calls n file fun l follows => links l (.directory is_directory follows)
    exact ⟨r, .directory is_directory names⟩
  | other n file no_directory no_link => exact ⟨_, .other no_directory no_link⟩

theorem names_call (links : ∀ l, Follows t root (.call c) l → Resolves t root l) :
    ∃ r, Names t root (.call c) r := by
  induction shorter : c.filename.length using Nat.strong_induction_on generalizing c with
  | _ k ih =>
    cases looked : t.look c with
    | done r => exact ⟨r, .done looked⟩
    | found file remaining =>
      have less := look_found_lt looked
      obtain ⟨r, names⟩ := names_arrived
        (fun n file links => ih remaining.length (shorter ▸ less) links rfl)
        fun l follows => links l (.found looked follows)
      exact ⟨r, .found looked names⟩

theorem resolves_of_acc (acc : Acc (flip (Leads t root)) l) : Resolves t root l := by
  induction acc with
  | intro l _ ih =>
    intro parent link c is_link to_target
    exact names_call fun l' follows => ih l' ⟨parent, link, c, is_link, to_target, follows⟩

/-- A call ends if and only if the links that it follows do not lead in a circle. -/
theorem ends_iff_noCycle [Finite ι] (t : Tree ι) (root : Option ι) (c : Call ι) :
    t.Ends root c ↔ t.NoCycle root c := by
  constructor
  · rintro ⟨fuel, r, returned⟩ l follows
    cases fuel with
    | zero => simp [resolve] at returned
    | succ fuel => exact not_comesBack_of_acc (follows.linked returned).acc
  · intro no_cycle
    rw [ends_iff_names]
    exact names_call fun l follows => resolves_of_acc (acc_of_not_comesBack (no_cycle l follows))

theorem look_plain (some_name : c.filename ≠ [] ∧ c.filename.head? ≠ some '/')
    (no_dot : (splitComponent c.filename).1 ≠ ['.']) :
    t.look c =
      t.lookFor c.dir (splitComponent c.filename).1 (splitComponent c.filename).2 := by
  have next : nextComponent c.filename = some (splitComponent c.filename) := by
    rw [nextComponent, dif_neg some_name.1]
    exact if_neg fun dot => no_dot dot.1
  rw [look, if_neg (not_or_intro some_name.1 some_name.2), next]

/-- A directory with a link `l` to its directory `d`, in which there is a file `f`. -/
def linkedTree : Tree (Fin 4) where
  item
    | 0 => .directory none (some [(['l'], some 1), (['d'], some 2)])
    | 1 => .symlink 0 ['d']
    | 2 => .directory (some 0) (some [(['f'], some 3)])
    | 3 => .file

theorem noCycle_linked_directory :
    linkedTree.NoCycle (some 0) ⟨0, ['l', '/', '.', '.'], 20⟩ := by
  have first : linkedTree.look ⟨0, ['l', '/', '.', '.'], 20⟩ = .found 1 ['.', '.'] :=
    look_plain (by decide) (by decide)
  have link : linkedTree.resolve (some 0) 1 ⟨0, ['d'], 20⟩ = some ⟨some 2, .success⟩ := by
    rw [resolve, look_plain (by decide) (by decide)]
    rfl
  have last : linkedTree.resolve (some 0) 1 ⟨2, ['.', '.'], 19⟩ = some ⟨some 0, .success⟩ := by
    rw [resolve, look_plain (by decide) (by decide)]
    rfl
  refine (ends_iff_noCycle linkedTree (some 0) ⟨0, ['l', '/', '.', '.'], 20⟩).mp
    ⟨2, ⟨some 0, .success⟩, ?_⟩
  rw [resolve, first]
  dsimp only
  rw [enter_link (c := ⟨0, ['d'], 20⟩) rfl rfl, link, andThen, enter_directory rfl, last]

/-- A directory with a link `a` whose target is `a/x`. -/
def selfLinkedTree : Tree (Fin 2) where
  item
    | 0 => .directory none (some [(['a'], some 1)])
    | 1 => .symlink 0 ['a', '/', 'x']

theorem not_ends_self_link : ¬selfLinkedTree.Ends (some 0) ⟨0, ['a', '/', 'b'], 20⟩ := by
  have inner : selfLinkedTree.look ⟨0, ['a', '/', 'x'], 20⟩ = .found 1 ['x'] :=
    look_plain (by decide) (by decide)
  have outer : selfLinkedTree.look ⟨0, ['a', '/', 'b'], 20⟩ = .found 1 ['b'] :=
    look_plain (by decide) (by decide)
  have never : ∀ fuel, selfLinkedTree.resolve (some 0) fuel ⟨0, ['a', '/', 'x'], 20⟩ = none := by
    intro fuel
    induction fuel with
    | zero => rfl
    | succ fuel ih =>
      rw [resolve, inner]
      dsimp only
      rw [enter_link (c := ⟨0, ['a', '/', 'x'], 20⟩) rfl rfl, ih, andThen]
      simp
  rintro ⟨fuel, r, returned⟩
  cases fuel with
  | zero => simp [resolve] at returned
  | succ fuel =>
    rw [resolve, outer] at returned
    dsimp only at returned
    rw [enter_link (c := ⟨0, ['a', '/', 'x'], 20⟩) rfl rfl, never] at returned
    simp [andThen] at returned

end JeoKernel.Kfs
