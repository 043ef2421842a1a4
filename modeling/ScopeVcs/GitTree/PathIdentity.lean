import ScopeVcs.GitTree.TreePath
import ScopeVcs.Lib.Mutation

/-! # The two kinds of paths

A path in a Git tree becomes a repository path with a leading `/` in front. Nothing is lost on the way
there and back, although `ScopePath::parse` leaves out empty parts: a path in a tree has none. What
is accepted as a path in a tree names the Git directory on no file system.
-/

namespace ScopeVcs

open Mutation

namespace ScopePath

/-- The parts of a path that are not empty. -/
def partsOf (chars : List Char) : List (List Char) := (chars.splitOn '/').filter (· ≠ [])

theorem mem_partsOf {chars part : List Char} (h : part ∈ partsOf chars) :
    part ≠ [] ∧ '/' ∉ part := by
  obtain ⟨hmem, hne⟩ := List.mem_filter.mp h
  exact ⟨of_decide_eq_true hne, Text.notMem_of_mem_splitOn hmem⟩

/-- Parts that are joined behind a leading `/` come apart again. -/
theorem partsOf_join {parts : List (List Char)} (h : ∀ part ∈ parts, part ≠ [] ∧ '/' ∉ part) :
    partsOf ('/' :: ['/'].intercalate parts) = parts := by
  by_cases hparts : parts = []
  · rw [hparts]
    rfl
  have hsplit : ('/' :: ['/'].intercalate parts).splitOn '/' = [] :: parts := by
    have hlead := List.splitOn_append_cons_self (a := '/') [] (['/'].intercalate parts)
    rw [List.nil_append, List.splitOn_nil,
      List.splitOn_intercalate '/' (fun part hpart => (h part hpart).2) hparts] at hlead
    exact hlead
  rw [partsOf, hsplit, List.filter_cons_of_neg (by simp), List.filter_eq_self]
  intro part hpart
  exact decide_eq_true (h part hpart).1

theorem parse_eq_ok {input : String} {path : ScopePath} :
    parse input = .ok path ↔ input.toList.head? = some '/' ∧
      (['.'] ∉ partsOf input.toList ∧ ['.', '.'] ∉ partsOf input.toList) ∧
      path.chars = '/' :: ['/'].intercalate (partsOf input.toList) := by
  unfold parse
  show (if _ then _ else if ['.'] ∈ partsOf input.toList ∨ ['.', '.'] ∈ partsOf input.toList then _
    else if (partsOf input.toList).isEmpty = true then _ else _) = _ ↔ _
  split_ifs with hrelative hsegment hempty
  · refine ⟨nofun, fun h => absurd h.1 hrelative⟩
  · refine ⟨nofun, ?_⟩
    rintro ⟨-, ⟨hdot, hdots⟩, -⟩
    exact absurd hsegment (not_or.mpr ⟨hdot, hdots⟩)
  · rw [List.isEmpty_iff] at hempty
    rw [not_or] at hsegment
    rw [hempty]
    constructor
    · rintro ⟨⟩
      exact ⟨not_not.mp hrelative, ⟨List.not_mem_nil, List.not_mem_nil⟩, rfl⟩
    · rintro ⟨-, -, hchars⟩
      exact congrArg Except.ok (asStr_injective (String.toList_inj.mp hchars.symm))
  · rw [not_or] at hsegment
    constructor
    · rintro ⟨⟩
      exact ⟨not_not.mp hrelative, hsegment, String.toList_ofList⟩
    · rintro ⟨-, -, hchars⟩
      refine congrArg Except.ok (asStr_injective (String.toList_inj.mp ?_))
      rw [String.toList_ofList]
      exact hchars.symm

/-- A path that was parsed is parsed to itself. -/
theorem parse_asStr {input : String} {path : ScopePath} (h : parse input = .ok path) :
    parse path.asStr = .ok path := by
  obtain ⟨-, hdots, hchars⟩ := parse_eq_ok.mp h
  have hparts : partsOf path.asStr.toList = partsOf input.toList := by
    show partsOf path.chars = _
    rw [hchars]
    exact partsOf_join fun _ => mem_partsOf
  rw [parse_eq_ok, hparts]
  exact ⟨path.absolute, hdots, hchars⟩

end ScopePath

namespace GitTreePath

/-- `GitTreePath::to_scope_path`; it would panic where there is none. -/
def toScopePath? (path : GitTreePath) : Option ScopePath :=
  (ScopePath.parse ("/" ++ path.asStr)).toOption

/-! ## What is accepted -/

theorem checkComponent_eq_ok {path : String} {component : List Char} :
    checkComponent path component = .ok () ↔
      (component ≠ [] ∧ component ≠ ['.'] ∧ component ≠ ['.', '.']) ∧
        isDotGitFilesystemAlias component = false ∧ isWindowsReservedDeviceName component = false ∧
        (':' ∉ component ∧ component.getLast? ≠ some ' ' ∧ component.getLast? ≠ some '.') := by
  unfold checkComponent
  split_ifs with hname halias hdevice hlast
  · simp only [Bool.or_eq_true, List.isEmpty_iff, beq_iff_eq] at hname
    refine ⟨nofun, fun h => ?_⟩
    rcases hname with (hempty | hdot) | hdots
    · exact absurd hempty h.1.1
    · exact absurd hdot h.1.2.1
    · exact absurd hdots h.1.2.2
  · refine ⟨nofun, fun h => ?_⟩
    rw [h.2.1] at halias
    cases halias
  · refine ⟨nofun, fun h => ?_⟩
    rw [h.2.2.1] at hdevice
    cases hdevice
  · simp only [Bool.or_eq_true, decide_eq_true_eq, beq_iff_eq] at hlast
    refine ⟨nofun, fun h => ?_⟩
    rcases hlast with (hcolon | hspace) | hdot
    · exact absurd hcolon h.2.2.2.1
    · exact absurd hspace h.2.2.2.2.1
    · exact absurd hdot h.2.2.2.2.2
  · simp only [Bool.or_eq_true, List.isEmpty_iff, beq_iff_eq, decide_eq_true_eq, not_or] at hname hlast
    exact ⟨fun _ => ⟨⟨hname.1.1, hname.1.2, hname.2⟩, Bool.eq_false_iff.mpr halias,
      Bool.eq_false_iff.mpr hdevice, hlast.1.1, hlast.1.2, hlast.2⟩, fun _ => rfl⟩

/-- A text that is accepted is the path, and each of its components was checked. -/
theorem of_parse_eq_ok {text : String} {path : GitTreePath} (h : parse text = .ok path) :
    path = ⟨text⟩ ∧ ∀ component ∈ text.toList.splitOn '/', checkComponent text component = .ok () := by
  have hasStr : path = ⟨text⟩ := asStr_injective (asStr_of_parse_eq_ok h)
  refine ⟨hasStr, ?_⟩
  unfold parse at h
  split_ifs at h
  · cases h
  · exact except_forM_eq_ok (except_unit_bind_eq_ok.mp h).1

/-- A path that is accepted has no part that a repository path would leave out or refuse. -/
theorem partsOf_of_parse {text : String} {path : GitTreePath} (h : parse text = .ok path) :
    ScopePath.partsOf ('/' :: text.toList) = text.toList.splitOn '/' ∧
      ['.'] ∉ text.toList.splitOn '/' ∧ ['.', '.'] ∉ text.toList.splitOn '/' := by
  have hchecked := fun component hcomponent =>
    (checkComponent_eq_ok.mp ((of_parse_eq_ok h).2 component hcomponent)).1
  refine ⟨?_, fun hdot => (hchecked _ hdot).2.1 rfl, fun hdots => (hchecked _ hdots).2.2 rfl⟩
  have hjoin := @ScopePath.partsOf_join (text.toList.splitOn '/') fun component hcomponent =>
    ⟨(hchecked component hcomponent).1, Text.notMem_of_mem_splitOn hcomponent⟩
  rwa [List.intercalate_splitOn] at hjoin

/-- The repository path of an accepted path has a `/` in front, and is that path in a tree. -/
theorem toScopePath?_of_parse {text : String} {path : GitTreePath} (h : parse text = .ok path) :
    ∃ scopePath, path.toScopePath? = some scopePath ∧ scopePath.asStr = "/" ++ text ∧
      fromScopePath scopePath = .ok path := by
  obtain ⟨rfl, -⟩ := of_parse_eq_ok h
  obtain ⟨hparts, hdot, hdots⟩ := partsOf_of_parse h
  have hchars : ("/" ++ text).toList = '/' :: text.toList := String.toList_append
  let scopePath : ScopePath := ⟨"/" ++ text, by rw [hchars]; rfl⟩
  have hparse : ScopePath.parse ("/" ++ text) = .ok scopePath := by
    rw [ScopePath.parse_eq_ok, hchars, hparts, List.intercalate_splitOn]
    exact ⟨rfl, ⟨hdot, hdots⟩, hchars⟩
  refine ⟨scopePath, ?_, rfl, ?_⟩
  · rw [toScopePath?, hparse]
    rfl
  · rw [fromScopePath]
    show parse (String.ofList ("/" ++ text).toList.tail) = _
    rw [hchars, List.tail_cons, String.ofList_toList]
    exact h

/-- A repository path that is one in a tree comes back. -/
theorem toScopePath?_of_fromScopePath {scopePath : ScopePath} {path : GitTreePath}
    (h : fromScopePath scopePath = .ok path) : path.toScopePath? = some scopePath := by
  have hpath : path.asStr = String.ofList scopePath.chars.tail := asStr_of_parse_eq_ok h
  obtain ⟨back, hback, hasStr, -⟩ := toScopePath?_of_parse h
  rw [hback]
  refine congrArg some (ScopePath.asStr_injective (String.toList_inj.mp ?_))
  rw [hasStr, String.toList_append, ← hpath]
  exact (chars_of_fromScopePath h).symm

/-! ## The Git directory -/

/-- The name of the Git directory but for case and the code points that HFS ignores. -/
def FoldsToDotGit (component : List Char) : Prop :=
  (component.filter fun c => !isHfsIgnored c).map Char.toLower = ".git".toList

/-- A name of the Git directory with spaces and dots behind it, and the name of a stream. -/
def ResolvesToDotGit (component : List Char) : Prop :=
  ∃ stem filler stream, component = stem ++ filler ++ stream ∧
    (stem.map Char.toLower = ".git".toList ∨ stem.map Char.toLower = "git~1".toList) ∧
    (∀ c ∈ filler, c = ' ' ∨ c = '.') ∧ (stream = [] ∨ stream.head? = some ':')

theorem toLower_filler {filler : List Char} (h : ∀ c ∈ filler, c = ' ' ∨ c = '.') :
    filler.map Char.toLower = filler := by
  conv_rhs => rw [← List.map_id filler]
  refine List.map_congr_left fun c hc => ?_
  rcases h c hc with rfl | rfl
  · rfl
  · rfl

/-- Spaces and dots are left out up to the name of a stream. -/
theorem dropWhile_filler {filler stream : List Char} (h : ∀ c ∈ filler, c = ' ' ∨ c = '.')
    (hstream : stream = [] ∨ stream.head? = some ':') :
    (filler ++ stream).dropWhile (fun c => c == ' ' || c == '.') = stream := by
  rw [List.dropWhile_append_of_pos fun c hc => ?_]
  · rcases hstream with rfl | hcolon
    · rfl
    · obtain ⟨rest, rfl⟩ := List.head?_eq_some_iff.mp hcolon
      rfl
  · rcases h c hc with rfl | rfl
    · rfl
    · rfl

theorem isNtfsDotGit_of_resolves {component : List Char} (h : ResolvesToDotGit component) :
    isNtfsDotGit component = true := by
  obtain ⟨stem, filler, stream, rfl, hstem, hfiller, hstream⟩ := h
  have hlower : (stem ++ filler ++ stream).map Char.toLower =
      stem.map Char.toLower ++ (filler ++ stream.map Char.toLower) := by
    rw [List.map_append, List.map_append, toLower_filler hfiller, List.append_assoc]
  have hstream' : stream.map Char.toLower = [] ∨ (stream.map Char.toLower).head? = some ':' := by
    rcases hstream with rfl | hcolon
    · exact .inl rfl
    · rw [List.head?_map, hcolon]
      exact .inr rfl
  have hstrip : (Text.stripPrefix? ".git".toList ((stem ++ filler ++ stream).map Char.toLower)).or
      (Text.stripPrefix? "git~1".toList ((stem ++ filler ++ stream).map Char.toLower)) =
        some (filler ++ stream.map Char.toLower) := by
    rcases hstem with hgit | hshort
    · rw [hlower, hgit, Text.stripPrefix?_eq_some.mpr rfl]
      rfl
    · have hother : Text.stripPrefix? ".git".toList
          ("git~1".toList ++ (filler ++ stream.map Char.toLower)) = none := rfl
      rw [hlower, hshort, hother, Text.stripPrefix?_eq_some.mpr rfl]
      rfl
  unfold isNtfsDotGit
  simp only [hstrip, dropWhile_filler hfiller hstream']
  rcases hstream with rfl | hcolon
  · rfl
  · obtain ⟨rest, rfl⟩ := List.head?_eq_some_iff.mp hcolon
    rfl

theorem isDotGitFilesystemAlias_of_names {component : List Char}
    (h : FoldsToDotGit component ∨ ResolvesToDotGit component) :
    isDotGitFilesystemAlias component = true := by
  rw [isDotGitFilesystemAlias, Bool.or_eq_true]
  rcases h with hfolds | hresolves
  · refine .inr (beq_iff_eq.mpr ?_)
    rw [hfolds]
    rfl
  · exact .inl (isNtfsDotGit_of_resolves hresolves)

/-- No component of an accepted path names the Git directory. -/
theorem not_names_of_parse {text : String} {path : GitTreePath} (h : parse text = .ok path) :
    ∀ component ∈ text.toList.splitOn '/',
      ¬FoldsToDotGit component ∧ ¬ResolvesToDotGit component := by
  intro component hcomponent
  have halias := (checkComponent_eq_ok.mp ((of_parse_eq_ok h).2 component hcomponent)).2.1
  rw [← not_or]
  intro hnames
  rw [isDotGitFilesystemAlias_of_names hnames] at halias
  cases halias

/-- The two kinds of paths name each other, and no path in a tree names the Git directory. -/
theorem identity_and_reserved_names :
    (∀ text, parse text = .ok ⟨text⟩ ∨ ∃ error, parse text = .error error) ∧
    (∀ text path, parse text = .ok path → ∃ scopePath, path.toScopePath? = some scopePath ∧
      scopePath.asStr = "/" ++ text ∧ path.asStr = text ∧ fromScopePath scopePath = .ok path) ∧
    (∀ text text' path path', parse text = .ok path → parse text' = .ok path' →
      path.toScopePath? = path'.toScopePath? → path = path') ∧
    (∀ scopePath path, fromScopePath scopePath = .ok path → path.toScopePath? = some scopePath) ∧
    (∀ input path, ScopePath.parse input = .ok path → ScopePath.parse path.asStr = .ok path) ∧
    ∀ text path, parse text = .ok path → ∀ component ∈ text.toList.splitOn '/',
      ¬FoldsToDotGit component ∧ ¬ResolvesToDotGit component := by
  refine ⟨fun text => ?_, fun text path h => ?_, fun text text' path path' h h' hsame => ?_,
    fun _ _ => toScopePath?_of_fromScopePath, fun _ _ => ScopePath.parse_asStr,
    fun _ _ => not_names_of_parse⟩
  · cases hparse : parse text with
    | ok path => exact .inl (congrArg Except.ok (of_parse_eq_ok hparse).1)
    | error error => exact .inr ⟨error, rfl⟩
  · obtain ⟨scopePath, hscope, hasStr, hback⟩ := toScopePath?_of_parse h
    exact ⟨scopePath, hscope, hasStr, asStr_of_parse_eq_ok h, hback⟩
  · obtain ⟨scopePath, hscope, -, hback⟩ := toScopePath?_of_parse h
    obtain ⟨scopePath', hscope', -, hback'⟩ := toScopePath?_of_parse h'
    rw [hscope, hscope', Option.some.injEq] at hsame
    rw [hsame, hback'] at hback
    exact (Except.ok.inj hback).symm

/-- A path with ignorable code points and spaces inside keeps its name. -/
theorem identity_of_guide : ∃ scopePath, toScopePath? ⟨"docs/read me\u200c.md"⟩ = some scopePath ∧
    scopePath.asStr = "/docs/read me\u200c.md" := by
  obtain ⟨scopePath, hscope, hasStr, -⟩ :=
    identity_and_reserved_names.2.1 "docs/read me\u200c.md" ⟨"docs/read me\u200c.md"⟩ (by decide)
  exact ⟨scopePath, hscope, hasStr⟩

end GitTreePath

end ScopeVcs
