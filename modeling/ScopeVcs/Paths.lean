import ScopeVcs.Lib.Text

/-! # Repository paths

`ScopePath` is an absolute path in a repository. The predicates below single out the control
directory `/.scope` and the paths that requests must not touch.
-/

namespace ScopeVcs

/-- An absolute repository path. -/
structure ScopePath where
  asStr : String
  absolute : asStr.toList.head? = some '/'
  deriving DecidableEq

inductive ScopePathError where
  | relativePath
  | invalidSegment
  deriving DecidableEq

namespace ScopePath

theorem asStr_injective : Function.Injective asStr := by
  rintro ⟨a, ha⟩ ⟨b, hb⟩ h
  cases h
  rfl

instance : LinearOrder ScopePath := LinearOrder.lift' asStr asStr_injective

def root : ScopePath := ⟨"/", rfl⟩

/-- `ScopePath::parse`: an absolute path without its empty segments. -/
def parse (input : String) : Except ScopePathError ScopePath :=
  let parts := (input.toList.splitOn '/').filter (· ≠ [])
  if input.toList.head? ≠ some '/' then .error .relativePath
  else if ".".toList ∈ parts ∨ "..".toList ∈ parts then .error .invalidSegment
  else if parts.isEmpty then .ok root
  else .ok ⟨String.ofList ('/' :: ['/'].intercalate parts), by rw [String.toList_ofList]; rfl⟩

def chars (path : ScopePath) : List Char := path.asStr.toList

/-- The part of a path before the `/` at `separator`; the one before the leading `/` stands for
the root. -/
def parentAt (path : ScopePath) (separator : ℕ) : ScopePath :=
  if h : separator = 0 then root
  else ⟨String.ofList (path.chars.take separator), by
    obtain ⟨n, rfl⟩ := Nat.exists_eq_succ_of_ne_zero h
    have habsolute := path.absolute
    rw [chars, String.toList_ofList]
    cases hchars : path.asStr.toList with
    | nil => simp [hchars] at habsolute
    | cons c cs => simpa [hchars] using habsolute⟩

/-- The parents of a path, from the shortest. -/
def parents (path : ScopePath) : List ScopePath :=
  (List.range path.chars.length).filterMap fun separator =>
    if path.chars[separator]? = some '/' then some (path.parentAt separator) else none

/-- A path and then its parents, from the longest to the root. -/
def selfAndAncestors (path : ScopePath) : List ScopePath :=
  path :: path.parents.reverse.filter (· ≠ path)

end ScopePath

/-! ## Control paths -/

def repoControlRoot : String := "/.scope"

def repoControlPrefix : String := "/.scope/"

def legacyRepoRulesPath : String := "/.scope/RULES.md"

def isRepoControlPath (path : ScopePath) : Bool :=
  path.asStr == repoControlRoot || Text.startsWith path.asStr repoControlPrefix

def isRepoRulesPath (path : ScopePath) : Bool := path.asStr == legacyRepoRulesPath

/-- A control path that only the full view may see. -/
def isPrivateControlPath (path : ScopePath) : Bool :=
  isRepoControlPath path && !isRepoRulesPath path

/-- The first component of a path, without its leading slashes. -/
def rootComponent (path : ScopePath) : List Char :=
  ((Text.trimStart '/' path.chars).splitOn '/').headD []

def isCaseFoldedRepoControlPath (path : ScopePath) : Bool :=
  Text.eqIgnoreAsciiCase (rootComponent path) ".scope".toList

def isAgentContextPath (path : ScopePath) : Bool :=
  let relative := Text.trimStart '/' path.chars
  [".codex", ".claude", ".agents"].any
      (fun directory => Text.eqIgnoreAsciiCase (rootComponent path) directory.toList) ||
    Text.eqIgnoreAsciiCase relative ".mcp.json".toList ||
    ["AGENTS.md", "AGENTS.override.md", "CLAUDE.md", "CLAUDE.local.md"].any
      (fun name => Text.eqIgnoreAsciiCase ((relative.splitOn '/').getLastD []) name.toList)

/-- Paths a request of a narrower view must not change. -/
def isRequestProtectedPath (path : ScopePath) : Bool :=
  isCaseFoldedRepoControlPath path || isAgentContextPath path

/-- The reserved patterns: the control root, or anything below it. -/
def isRepoControlPattern (pattern : String) : Bool :=
  let base := (Text.stripSuffix? "/**".toList pattern.toList).getD pattern.toList
  base == repoControlRoot.toList || repoControlPrefix.toList.isPrefixOf base

theorem isRepoControlPath_of_isRepoRulesPath {path : ScopePath} (h : isRepoRulesPath path = true) :
    isRepoControlPath path = true := by
  have hpath : path.asStr = legacyRepoRulesPath := by simpa [isRepoRulesPath] using h
  rw [isRepoControlPath, hpath]
  decide

example : isPrivateControlPath ⟨"/.scope/runs/test.yml", rfl⟩ = true := by decide

example : isRequestProtectedPath ⟨"/src/Agents.Override.Md", rfl⟩ = true := by decide

end ScopeVcs
