import ScopeVcs.Paths

/-! # Paths in Git trees

A repository path enters a Git tree without its leading `/`, when every component of it can be
checked out on every file system.
-/

namespace ScopeVcs

inductive GitTreePathError where
  | unrepresentable (path : String)
  | reservedDotGit (path : String)
  | reservedWindowsDevice (path : String)
  deriving DecidableEq

/-- A path below the root of a Git tree. -/
structure GitTreePath where
  asStr : String
  deriving DecidableEq

namespace GitTreePath

theorem asStr_injective : Function.Injective asStr := by
  rintro ⟨a⟩ ⟨b⟩ h
  exact congrArg mk h

instance : LinearOrder GitTreePath := LinearOrder.lift' asStr asStr_injective

/-! ## Reserved names -/

/-- `char::is_control`: the Unicode category Cc. -/
def isControl (c : Char) : Bool := c.toNat ≤ 0x1F || (0x7F ≤ c.toNat && c.toNat ≤ 0x9F)

/-- Names that NTFS resolves to the Git directory. -/
def isNtfsDotGit (component : List Char) : Bool :=
  let component := component.map Char.toLower
  match (Text.stripPrefix? ".git".toList component).or
      (Text.stripPrefix? "git~1".toList component) with
  | none => false
  | some suffix =>
    match suffix.dropWhile fun c => c == ' ' || c == '.' with
    | [] => true
    | c :: _ => c == ':'

def isHfsIgnored (c : Char) : Bool :=
  let n := c.toNat
  (0x200C ≤ n && n ≤ 0x200F) || (0x202A ≤ n && n ≤ 0x202E) || (0x206A ≤ n && n ≤ 0x206F) ||
    n == 0xFEFF

/-- Names that HFS resolves to the Git directory. -/
def isHfsDotGit (component : List Char) : Bool :=
  Text.eqIgnoreAsciiCase (component.filter fun c => !isHfsIgnored c) ".git".toList

def isDotGitFilesystemAlias (component : List Char) : Bool :=
  isNtfsDotGit component || isHfsDotGit component

def isWindowsReservedDeviceNumber (suffix : List Char) : Bool :=
  match suffix with
  | [c] => c ∈ "123456789¹²³".toList
  | _ => false

def isWindowsReservedDeviceName (component : List Char) : Bool :=
  let basename := component.takeWhile fun c => c != '.' && c != ':'
  ["CON", "PRN", "AUX", "NUL"].any
      (fun reserved => Text.eqIgnoreAsciiCase basename reserved.toList) ||
    ["COM", "LPT"].any fun start =>
      match Text.stripPrefix? start.toList (basename.map Char.toUpper) with
      | some suffix => isWindowsReservedDeviceNumber suffix
      | none => false

/-! ## Parsing -/

/-- What `parse` asks of one component of `path`. -/
def checkComponent (path : String) (component : List Char) : Except GitTreePathError Unit :=
  if component.isEmpty || component == ['.'] || component == ['.', '.'] then
    .error (.unrepresentable path)
  else if isDotGitFilesystemAlias component then .error (.reservedDotGit path)
  else if isWindowsReservedDeviceName component then .error (.reservedWindowsDevice path)
  else if ':' ∈ component || component.getLast? == some ' ' || component.getLast? == some '.' then
    .error (.unrepresentable path)
  else .ok ()

def parse (path : String) : Except GitTreePathError GitTreePath := do
  if path.isEmpty || path.toList.head? == some '/' || '\\' ∈ path.toList ||
      path.toList.any isControl then
    throw (.unrepresentable path)
  (path.toList.splitOn '/').forM (checkComponent path)
  return ⟨path⟩

/-- `GitTreePath::from_scope_path`. -/
def fromScopePath (path : ScopePath) : Except GitTreePathError GitTreePath :=
  parse (String.ofList path.chars.tail)

/-- The names on the way to the file. -/
def components (path : GitTreePath) : List String :=
  (path.asStr.toList.splitOn '/').map String.ofList

theorem asStr_of_parse_eq_ok {path : String} {treePath : GitTreePath}
    (h : parse path = .ok treePath) : treePath.asStr = path := by
  simp only [parse, bind, Except.bind, pure, Except.pure, throw, throwThe,
    MonadExceptOf.throw] at h
  split_ifs at h
  split at h
  · cases h
  · cases h
    rfl

/-- A path is the leading `/` and its path in the tree. -/
theorem chars_of_fromScopePath {path : ScopePath} {treePath : GitTreePath}
    (h : fromScopePath path = .ok treePath) : path.chars = '/' :: treePath.asStr.toList := by
  have hasStr : treePath.asStr = String.ofList path.chars.tail := asStr_of_parse_eq_ok h
  have habsolute : path.chars.head? = some '/' := path.absolute
  rw [hasStr, String.toList_ofList]
  exact (List.cons_head?_tail habsolute).symm

theorem fromScopePath_injective {path path' : ScopePath} {treePath : GitTreePath}
    (h : fromScopePath path = .ok treePath) (h' : fromScopePath path' = .ok treePath) :
    path = path' := by
  have hchars : path.asStr.toList = path'.asStr.toList := by
    change path.chars = path'.chars
    rw [chars_of_fromScopePath h, chars_of_fromScopePath h']
  exact ScopePath.asStr_injective (String.toList_inj.mp hchars)

theorem components_ne_nil (path : GitTreePath) : path.components ≠ [] := by
  simp [components]

theorem components_injective : Function.Injective components := by
  intro path path' h
  have hsplit : path.asStr.toList.splitOn '/' = path'.asStr.toList.splitOn '/' :=
    List.map_injective_iff.mpr (fun _ _ => String.ofList_injective) h
  have hchars := congrArg (List.intercalate ['/']) hsplit
  rw [List.intercalate_splitOn, List.intercalate_splitOn] at hchars
  exact asStr_injective (String.toList_inj.mp hchars)

/-- The components of a path begin those of every path below it, and of no other. -/
theorem components_append_iff {path path' : GitTreePath} :
    (∃ rest ≠ [], path'.components = path.components ++ rest) ↔
      path.asStr.toList ++ ['/'] <+: path'.asStr.toList := by
  constructor
  · rintro ⟨rest, hrest, happend⟩
    have hsplit : path'.asStr.toList.splitOn '/' =
        path.asStr.toList.splitOn '/' ++ rest.map String.toList := by
      have h := congrArg (List.map String.toList) happend
      simpa [components, List.map_map, Function.comp_def] using h
    have hne : rest.map String.toList ≠ [] := by simpa using hrest
    have hchars := congrArg (List.intercalate ['/']) hsplit
    rw [List.intercalate_splitOn, Text.intercalate_append ['/']
      (List.splitOn_ne_nil '/' path.asStr.toList) hne, List.intercalate_splitOn] at hchars
    rw [hchars]
    exact List.prefix_append _ _
  · rintro ⟨below, hbelow⟩
    refine ⟨(below.splitOn '/').map String.ofList, by simp, ?_⟩
    rw [components, ← hbelow, List.append_assoc, List.singleton_append,
      List.splitOn_append_cons_self, List.map_append]
    rfl

end GitTreePath

example : GitTreePath.parse "docs/NUL.txt" = .error (.reservedWindowsDevice "docs/NUL.txt") := by
  decide

end ScopeVcs
