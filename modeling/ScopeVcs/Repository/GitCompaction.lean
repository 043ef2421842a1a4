import Mathlib.Data.List.Basic
import ScopeVcs.Lib.BinaryCounter
import ScopeVcs.Repository.Git

/-! # Compaction of main packs

`GitCompactionPlan.select` picks the leftmost pair of adjacent main packs that cover equally many
pushes and fit the byte limit, and `replacement` is the pack that takes their place. Both rest on
`validateMainChain`, which walks the packs in order and rejects any that does not extend the chain.
-/

namespace ScopeVcs

inductive GitCompactionError where
  | notMainPack (packId : String)
  | invalidRange (firstSequence lastSequence : ℕ)
  | nonGeometricCoverage (firstSequence lastSequence sequenceCount : ℕ)
  | invalidStart (firstSequence : ℕ)
  | nonContiguous (previousLastSequence nextFirstSequence : ℕ)
  | disconnectedHistory (previousHeadOid : String) (nextPrerequisites : List String)
  | replacementBoundaryMismatch
  | selectedSizesDiffer
  deriving DecidableEq

structure MainRange where
  first : ℕ
  last : ℕ
  deriving DecidableEq

/-- The number of pushes a range covers. -/
def MainRange.count (range : MainRange) : Except GitCompactionError ℕ :=
  match (U64.checkedSub range.last range.first).bind (U64.checkedAdd · 1) with
  | some count => .ok count
  | none => .error (.invalidRange range.first range.last)

structure ChainEntry where
  index : ℕ
  count : ℕ
  deriving DecidableEq

def mainRange (pack : GitPoolPack) : Except GitCompactionError MainRange :=
  match pack.owner.mainSequences with
  | some (first, last) => .ok ⟨first, last⟩
  | none => .error (.notMainPack pack.id)

def validateLink (previous : GitPoolPack) (previousRange : MainRange) (next : GitPoolPack)
    (nextRange : MainRange) : Except GitCompactionError Unit :=
  if U64.checkedAdd previousRange.last 1 ≠ some nextRange.first then
    .error (.nonContiguous previousRange.last nextRange.first)
  else if next.prerequisites ≠ [previous.headOid] then
    .error (.disconnectedHistory previous.headOid next.prerequisites)
  else .ok ()

/-- How a pack may follow `previous`: linked to it, or at the very start of the chain. -/
def validateNext (previous : Option (GitPoolPack × MainRange)) (pack : GitPoolPack)
    (range : MainRange) : Except GitCompactionError Unit :=
  match previous with
  | some (previousPack, previousRange) => validateLink previousPack previousRange pack range
  | none =>
    if range.first ≠ 1 ∨ pack.prerequisites ≠ [] then .error (.invalidStart range.first)
    else .ok ()

/-- The loop of `validate_main_chain`, from position `index` on. -/
def validateMainChainFrom (index : ℕ) (previous : Option (GitPoolPack × MainRange)) :
    List GitPoolPack → Except GitCompactionError (List ChainEntry)
  | [] => .ok []
  | pack :: packs => do
    let range ← mainRange pack
    let count ← range.count
    if U64.isPowerOfTwo count = false then
      throw (.nonGeometricCoverage range.first range.last count)
    validateNext previous pack range
    let entries ← validateMainChainFrom (index + 1) (some (pack, range)) packs
    return ⟨index, count⟩ :: entries

def validateMainChain (packs : List GitPoolPack) : Except GitCompactionError (List ChainEntry) :=
  validateMainChainFrom 0 none packs

/-! ## Selecting a pair -/

structure GitCompactionPlan where
  selectedPacks : GitPoolPack × GitPoolPack
  deriving DecidableEq

/-- `windows(2)`. -/
def adjacentPairs (spans : List ChainEntry) : List (ChainEntry × ChainEntry) :=
  spans.zip spans.tail

def sameCount (pair : ChainEntry × ChainEntry) : Bool := pair.1.count == pair.2.count

/-- Whether two packs together stay within the byte limit. Chain entries only hold positions of
`packs`, so the last case never arises. -/
def withinBytes (packs : List GitPoolPack) (maxSourceBytes : ℕ) (pair : ChainEntry × ChainEntry) :
    Bool :=
  match packs[pair.1.index]?, packs[pair.2.index]? with
  | some first, some last =>
    match U64.checkedAdd first.storage.storedBytes last.storage.storedBytes with
    | some total => total ≤ maxSourceBytes
    | none => false
  | _, _ => false

/-- Where the pair to merge starts. -/
def pairStart (packs : List GitPoolPack) (maxSourceBytes : ℕ) (spans : List ChainEntry) :
    Option ℕ :=
  (adjacentPairs spans).findIdx? fun pair =>
    sameCount pair && withinBytes packs maxSourceBytes pair

/-- Whether the byte limit decides the selection: without it another pair, further left, would have
been merged. -/
def byteLimitRejects (packs : List GitPoolPack) (maxSourceBytes : ℕ) : Bool :=
  match validateMainChain packs with
  | .ok spans => (adjacentPairs spans).findIdx? sameCount != pairStart packs maxSourceBytes spans
  | .error _ => false

namespace GitCompactionPlan

def select (packs : List GitPoolPack) (maxSourceBytes : ℕ) :
    Except GitCompactionError (Option GitCompactionPlan) := do
  let spans ← validateMainChain packs
  match pairStart packs maxSourceBytes spans with
  | none => return none
  | some start =>
    match packs[start]?, packs[start + 1]? with
    | some first, some last => return some ⟨(first, last)⟩
    | _, _ => return none

def validateReplacement (plan : GitCompactionPlan) (replacement : GitPoolPack) :
    Except GitCompactionError Unit := do
  let (first, last) := plan.selectedPacks
  let firstRange ← mainRange first
  let lastRange ← mainRange last
  validateLink first firstRange last lastRange
  let firstCount ← firstRange.count
  let lastCount ← lastRange.count
  if firstCount ≠ lastCount then throw .selectedSizesDiffer
  let covered ← mainRange replacement
  if covered.first ≠ firstRange.first ∨ covered.last ≠ lastRange.last ∨
      replacement.prerequisites ≠ first.prerequisites ∨ replacement.headOid ≠ last.headOid ∨
      (replacement.storage.segment?.map (·.segmentId)) ≠ some replacement.id then
    throw .replacementBoundaryMismatch

/-- The pack that takes the place of the two selected ones, stored as `segment`. -/
def replacement (plan : GitCompactionPlan) (segment : GitSegmentRef) :
    Except GitCompactionError GitPoolPack := do
  let (first, last) := plan.selectedPacks
  let firstRange ← mainRange first
  let lastRange ← mainRange last
  let replacement : GitPoolPack :=
    { id := segment.segmentId
      owner := .main firstRange.first lastRange.last
      headOid := last.headOid
      prerequisites := first.prerequisites
      storage := .segment segment }
  plan.validateReplacement replacement
  return replacement

end GitCompactionPlan

/-! ## Linked chains -/

/-- `Linked first prerequisites packs exponents next heads`: the packs cover `first` up to but not
including `next`, the `i`th pack `2 ^ exponents[i]` sequences. The first pack builds on
`prerequisites`, each later one on the head before it, and what follows builds on `heads`. -/
inductive Linked : ℕ → List String → List GitPoolPack → List ℕ → ℕ → List String → Prop where
  | nil (first : ℕ) (prerequisites : List String) :
    Linked first prerequisites [] [] first prerequisites
  | cons {pack : GitPoolPack} {last next k : ℕ} {heads : List String} {packs : List GitPoolPack}
      {ks : List ℕ} (first : ℕ) (howner : pack.owner = .main first last)
      (hlast : last + 1 = first + 2 ^ k)
      (hrest : Linked (last + 1) [pack.headOid] packs ks next heads) :
    Linked first pack.prerequisites (pack :: packs) (k :: ks) next heads

/-- The chain entries of packs with the given exponents, from position `index` on. -/
def chainEntries (index : ℕ) : List ℕ → List ChainEntry
  | [] => []
  | k :: ks => ⟨index, 2 ^ k⟩ :: chainEntries (index + 1) ks

@[simp]
theorem length_chainEntries (index : ℕ) (ks : List ℕ) :
    (chainEntries index ks).length = ks.length := by
  induction ks generalizing index with
  | nil => rfl
  | cons k ks ih => simp [chainEntries, ih]

theorem chainEntries_getElem? (index i : ℕ) (ks : List ℕ) :
    (chainEntries index ks)[i]? = ks[i]?.map (⟨index + i, 2 ^ ·⟩) := by
  induction ks generalizing index i with
  | nil => rfl
  | cons k ks ih =>
    cases i with
    | zero => rfl
    | succ i =>
      simp only [chainEntries, List.getElem?_cons_succ, ih]
      rw [show index + 1 + i = index + (i + 1) by omega]

@[simp]
theorem map_count_chainEntries (index : ℕ) (ks : List ℕ) :
    (chainEntries index ks).map (·.count) = ks.map (2 ^ ·) := by
  induction ks generalizing index with
  | nil => rfl
  | cons k ks ih => simp [chainEntries, ih]

namespace Linked

variable {first next mid k : ℕ} {pre heads : List String} {packs rest : List GitPoolPack}
  {ks ls : List ℕ}

theorem length_eq (h : Linked first pre packs ks next heads) : packs.length = ks.length := by
  induction h with
  | nil => rfl
  | cons _ _ _ _ ih => simp [ih]

/-- A chain advances by the value of its exponents. -/
theorem next_eq (h : Linked first pre packs ks next heads) :
    next = first + BinaryCounter.value ks := by
  induction h with
  | nil => rfl
  | cons first howner hlast _ ih =>
    rw [ih, hlast, BinaryCounter.value, BinaryCounter.value, List.map_cons, List.sum_cons]
    omega

theorem append {mids : List String} (h : Linked first pre packs ks mid mids)
    (hrest : Linked mid mids rest ls next heads) :
    Linked first pre (packs ++ rest) (ks ++ ls) next heads := by
  induction h with
  | nil => exact hrest
  | cons first howner hlast _ ih => exact .cons first howner hlast (ih hrest)

theorem nil_inv (h : Linked first pre [] ks next heads) : ks = [] ∧ next = first ∧ heads = pre := by
  cases h with
  | nil => exact ⟨rfl, rfl, rfl⟩

theorem cons_inv {pack : GitPoolPack} (h : Linked first pre (pack :: packs) ks next heads) :
    ∃ last k ks', ks = k :: ks' ∧ pack.owner = .main first last ∧ last + 1 = first + 2 ^ k ∧
      pack.prerequisites = pre ∧ Linked (last + 1) [pack.headOid] packs ks' next heads := by
  cases h with
  | cons first howner hlast hrest => exact ⟨_, _, _, rfl, howner, hlast, rfl, hrest⟩

/-- A chain can be cut in front of any of its packs. -/
theorem split (h : Linked first pre (packs ++ rest) ks next heads) :
    ∃ ks₁ ks₂ mid mids, ks = ks₁ ++ ks₂ ∧ Linked first pre packs ks₁ mid mids ∧
      Linked mid mids rest ks₂ next heads := by
  induction packs generalizing first pre ks with
  | nil => exact ⟨[], ks, first, pre, rfl, .nil first pre, h⟩
  | cons pack packs ih =>
    obtain ⟨last, k, ks, rfl, howner, hlast, rfl, hrest⟩ := h.cons_inv
    obtain ⟨ks₁, ks₂, mid, mids, rfl, h₁, h₂⟩ := ih hrest
    exact ⟨k :: ks₁, ks₂, mid, mids, rfl, .cons first howner hlast h₁, h₂⟩

/-- The first numbers of a chain's ranges never fall below where the chain starts. -/
theorem first_le_of_mem (h : Linked first pre packs ks next heads) {pack : GitPoolPack}
    (hp : pack ∈ packs) {a b : ℕ} (howner : pack.owner = .main a b) : first ≤ a := by
  induction h with
  | nil => cases hp
  | @cons _ _ _ k _ _ _ first howner' hlast _ ih =>
    rcases List.mem_cons.mp hp with rfl | hp
    · rw [howner'] at howner
      cases howner
      exact le_rfl
    · have hle := ih hp
      have hpos : 1 ≤ 2 ^ k := Nat.one_le_two_pow
      omega

/-- No pack occurs twice in a chain. -/
theorem nodup (h : Linked first pre packs ks next heads) : packs.Nodup := by
  induction h with
  | nil => exact List.nodup_nil
  | @cons pack last _ k _ _ _ first howner hlast hrest ih =>
    refine List.nodup_cons.mpr ⟨fun hmem => ?_, ih⟩
    have hle : last + 1 ≤ first := hrest.first_le_of_mem hmem howner
    have hpos : 1 ≤ 2 ^ k := Nat.one_le_two_pow
    omega

end Linked

/-! ## A linked chain validates -/

theorem mainRange_of_owner {pack : GitPoolPack} {first last : ℕ}
    (howner : pack.owner = .main first last) : mainRange pack = .ok ⟨first, last⟩ := by
  simp [mainRange, GitPoolPackOwner.mainSequences, howner]

theorem MainRange.count_eq {first last n : ℕ} (hn : last + 1 = first + n) (hpos : 1 ≤ n)
    (hle : n ≤ U64.maxU64) : (MainRange.mk first last).count = .ok n := by
  have hsub : U64.checkedSub last first = some (n - 1) := by
    rw [U64.checkedSub_eq_some]
    omega
  have hadd : U64.checkedAdd (n - 1) 1 = some n := by
    rw [U64.checkedAdd_eq_some]
    omega
  simp [MainRange.count, hsub, hadd]

theorem validateLink_of_follows {previous next : GitPoolPack} {previousRange nextRange : MainRange}
    (hseq : previousRange.last + 1 = nextRange.first) (hle : nextRange.first ≤ U64.maxU64)
    (hpre : next.prerequisites = [previous.headOid]) :
    validateLink previous previousRange next nextRange = .ok () := by
  have hadd : U64.checkedAdd previousRange.last 1 = some nextRange.first :=
    U64.checkedAdd_eq_some.mpr ⟨hseq, hle⟩
  simp [validateLink, hadd, hpre]

/-- What the chain so far says about the next pack: the sequence number it starts at and the heads
it builds on. -/
def Follows (previous : Option (GitPoolPack × MainRange)) (first : ℕ) (prerequisites : List String) :
    Prop :=
  match previous with
  | none => first = 1 ∧ prerequisites = []
  | some (pack, range) => range.last + 1 = first ∧ prerequisites = [pack.headOid]

theorem validateNext_of_follows {previous : Option (GitPoolPack × MainRange)} {pack : GitPoolPack}
    {range : MainRange} (h : Follows previous range.first pack.prerequisites)
    (hle : range.first ≤ U64.maxU64) : validateNext previous pack range = .ok () := by
  cases previous with
  | none => simp [validateNext, h.1, h.2]
  | some prev => exact validateLink_of_follows h.1 hle h.2

/-- The walk of `validate_main_chain` accepts a linked chain and records its counts. -/
theorem validateMainChainFrom_of_linked {first next : ℕ} {pre heads : List String}
    {packs : List GitPoolPack} {ks : List ℕ} (h : Linked first pre packs ks next heads)
    (previous : Option (GitPoolPack × MainRange)) (hprev : Follows previous first pre)
    (hfirst : 1 ≤ first) (hnext : next ≤ U64.maxU64 + 1) (index : ℕ) :
    validateMainChainFrom index previous packs = .ok (chainEntries index ks) := by
  induction h generalizing index previous with
  | nil => rfl
  | @cons pack last next k heads packs ks first howner hlast hrest ih =>
    have hend : last + 1 ≤ next := by
      rw [hrest.next_eq]
      omega
    have hpos : 1 ≤ 2 ^ k := Nat.one_le_two_pow
    have hcount : (MainRange.mk first last).count = .ok (2 ^ k) :=
      MainRange.count_eq hlast hpos (by omega)
    have hpow : U64.isPowerOfTwo (2 ^ k) = true := U64.isPowerOfTwo_iff.mpr ⟨k, rfl⟩
    have hval : validateNext previous pack ⟨first, last⟩ = .ok () :=
      validateNext_of_follows hprev (by show first ≤ _; omega)
    have htail := ih (some (pack, ⟨first, last⟩)) ⟨rfl, rfl⟩ (by omega) hnext (index + 1)
    simp [validateMainChainFrom, mainRange_of_owner howner, hcount, hpow, hval, htail,
      chainEntries, bind, Except.bind, pure, Except.pure]

theorem validateMainChain_of_linked {next : ℕ} {heads : List String} {packs : List GitPoolPack}
    {ks : List ℕ} (h : Linked 1 [] packs ks next heads) (hnext : next ≤ U64.maxU64 + 1) :
    validateMainChain packs = .ok (chainEntries 0 ks) :=
  validateMainChainFrom_of_linked h none ⟨rfl, rfl⟩ le_rfl hnext 0

/-! ## What is selected, and what replaces it -/

theorem adjacentPairs_getElem? (spans : List ChainEntry) (i : ℕ) :
    (adjacentPairs spans)[i]? =
      (spans[i]?).bind fun a => (spans[i + 1]?).map fun b => (a, b) := by
  rw [adjacentPairs, List.zip, List.getElem?_zipWith, List.getElem?_tail]
  cases spans[i]? <;> cases spans[i + 1]? <;> rfl

/-- Two neighbours of a chain count equally many pushes exactly when their exponents agree. -/
theorem sameCount_iff {ks : List ℕ} {i : ℕ} {pair : ChainEntry × ChainEntry}
    (h : (adjacentPairs (chainEntries 0 ks))[i]? = some pair) :
    sameCount pair = true ↔ ks[i]? = ks[i + 1]? := by
  rw [adjacentPairs_getElem?, chainEntries_getElem?, chainEntries_getElem?] at h
  cases hi : ks[i]? <;> cases hj : ks[i + 1]? <;> simp [hi, hj] at h
  subst h
  simp [sameCount]

/-- Where no pair of equal counts starts before position `n`, no neighbours among the first `n + 1`
exponents agree. -/
theorem isChain_take_of_sameCount_eq_false {ks : List ℕ} {n : ℕ}
    (h : ∀ j < n, ∀ pair, (adjacentPairs (chainEntries 0 ks))[j]? = some pair →
      sameCount pair = false) : (ks.take (n + 1)).IsChain (· ≠ ·) := by
  rw [List.isChain_iff_getElem]
  intro i hi heq
  rw [List.length_take] at hi
  have hpair : (adjacentPairs (chainEntries 0 ks))[i]? =
      some (⟨i, 2 ^ ks[i]⟩, ⟨i + 1, 2 ^ ks[i + 1]⟩) := by
    rw [adjacentPairs_getElem?, chainEntries_getElem?, chainEntries_getElem?,
      List.getElem?_eq_getElem (by omega), List.getElem?_eq_getElem (by omega)]
    simp
  have hsame := (sameCount_iff hpair).mpr (by
    rw [List.getElem?_eq_getElem (by omega), List.getElem?_eq_getElem (by omega)]
    simpa [List.getElem_take] using heq)
  rw [h i (by omega) _ hpair] at hsame
  cases hsame

/-- The selected position holds two equal exponents. -/
theorem eq_append_of_pairStart {packs : List GitPoolPack} {max : ℕ} {ks : List ℕ} {i : ℕ}
    (h : pairStart packs max (chainEntries 0 ks) = some i) :
    ∃ pre k post, ks = pre ++ k :: k :: post ∧ pre.length = i := by
  obtain ⟨hi, hp, -⟩ := List.findIdx?_eq_some_iff_getElem.mp h
  have hsame : sameCount ((adjacentPairs (chainEntries 0 ks))[i]) = true := by
    rw [Bool.and_eq_true] at hp
    exact hp.1
  have heq : ks[i]? = ks[i + 1]? :=
    (sameCount_iff (List.getElem?_eq_getElem hi)).mp hsame
  have hlen : i + 1 < ks.length := by
    simp only [adjacentPairs, List.length_zip, List.length_tail, length_chainEntries] at hi
    omega
  rw [List.getElem?_eq_getElem (by omega), List.getElem?_eq_getElem hlen, Option.some_inj] at heq
  refine ⟨ks.take i, ks[i], ks.drop (i + 2), ?_, by simp; omega⟩
  conv_lhs => rw [← List.take_append_drop i ks]
  rw [List.drop_eq_getElem_cons (by omega), List.drop_eq_getElem_cons hlen, ← heq]

/-- If the byte limit does not interfere, no exponent before the selected pair has an equal
neighbour; if nothing is selected, no exponent at all has one. -/
theorem isChain_of_not_byteLimitRejects {packs : List GitPoolPack} {max : ℕ} {ks : List ℕ}
    (hchain : validateMainChain packs = .ok (chainEntries 0 ks))
    (hbytes : byteLimitRejects packs max = false) :
    match pairStart packs max (chainEntries 0 ks) with
    | some i => (ks.take (i + 1)).IsChain (· ≠ ·)
    | none => ks.IsChain (· ≠ ·) := by
  have hfind : (adjacentPairs (chainEntries 0 ks)).findIdx? sameCount =
      pairStart packs max (chainEntries 0 ks) := by
    simpa [byteLimitRejects, hchain] using hbytes
  rw [← hfind]
  cases hres : (adjacentPairs (chainEntries 0 ks)).findIdx? sameCount with
  | some i =>
    obtain ⟨hi, -, hbefore⟩ := List.findIdx?_eq_some_iff_getElem.mp hres
    refine isChain_take_of_sameCount_eq_false fun j hj pair hpair => ?_
    rw [List.getElem?_eq_getElem (by omega), Option.some_inj] at hpair
    subst hpair
    simpa using hbefore j hj
  | none =>
    rw [List.findIdx?_eq_none_iff] at hres
    have htake := @isChain_take_of_sameCount_eq_false ks ks.length
      fun j _ pair hpair => hres pair (List.mem_of_getElem? hpair)
    rwa [List.take_of_length_le (by omega)] at htake

/-- On a linked chain `select` never fails, and a plan it returns holds two adjacent packs of equal
exponents. -/
theorem GitCompactionPlan.select_of_linked {next : ℕ} {heads : List String}
    {packs : List GitPoolPack} {ks : List ℕ} (h : Linked 1 [] packs ks next heads)
    (hnext : next ≤ U64.maxU64 + 1) (max : ℕ) :
    (pairStart packs max (chainEntries 0 ks) = none ∧ select packs max = .ok none) ∨
      ∃ pre first last post kpre k kpost,
        packs = pre ++ first :: last :: post ∧ ks = kpre ++ k :: k :: kpost ∧
          pre.length = kpre.length ∧ pairStart packs max (chainEntries 0 ks) = some kpre.length ∧
          select packs max = .ok (some ⟨(first, last)⟩) := by
  have hchain := validateMainChain_of_linked h hnext
  cases hstart : pairStart packs max (chainEntries 0 ks) with
  | none =>
    refine .inl ⟨rfl, ?_⟩
    simp [select, hchain, hstart, bind, Except.bind, pure, Except.pure]
  | some i =>
    obtain ⟨kpre, k, kpost, hks, hi⟩ := eq_append_of_pairStart hstart
    have hlen : packs.length = kpre.length + (kpost.length + 2) := by
      rw [h.length_eq, hks]
      simp
    subst hi
    refine .inr ⟨packs.take kpre.length, packs[kpre.length], packs[kpre.length + 1],
      packs.drop (kpre.length + 2), kpre, k, kpost, ?_, hks, by simp; omega, rfl, ?_⟩
    · conv_lhs => rw [← List.take_append_drop kpre.length packs]
      rw [List.drop_eq_getElem_cons (by omega), List.drop_eq_getElem_cons (by omega)]
    · simp [select, hchain, hstart, bind, Except.bind, pure, Except.pure,
        show kpre.length < packs.length by omega, show kpre.length + 1 < packs.length by omega]

/-- The pack a plan for two linked packs is replaced by: it covers both ranges, builds on what the
first one built on and ends at the head of the second. -/
theorem GitCompactionPlan.replacement_of_linked {first : GitPoolPack} {last : GitPoolPack}
    {a next k : ℕ} {pre heads : List String}
    (h : Linked a pre [first, last] [k, k] next heads)
    (hnext : next ≤ U64.maxU64 + 1) (segment : GitSegmentRef) :
    ∃ pack, (GitCompactionPlan.mk (first, last)).replacement segment = .ok pack ∧
      Linked a pre [pack] [k + 1] next heads := by
  obtain ⟨b, _, _, hks, howner₁, hlast₁, rfl, hrest⟩ := h.cons_inv
  cases hks
  obtain ⟨c, _, _, hks, howner₂, hlast₂, hpre, hrest⟩ := hrest.cons_inv
  cases hks
  obtain ⟨-, rfl, rfl⟩ := hrest.nil_inv
  have hpos : 1 ≤ 2 ^ k := Nat.one_le_two_pow
  have hcount₁ : (MainRange.mk a b).count = .ok (2 ^ k) :=
    MainRange.count_eq hlast₁ hpos (by omega)
  have hcount₂ : (MainRange.mk (b + 1) c).count = .ok (2 ^ k) :=
    MainRange.count_eq hlast₂ hpos (by omega)
  have hlink : validateLink first ⟨a, b⟩ last ⟨b + 1, c⟩ = .ok () :=
    validateLink_of_follows rfl (by show b + 1 ≤ _; omega) hpre
  let pack : GitPoolPack :=
    ⟨segment.segmentId, .main a c, last.headOid, first.prerequisites, .segment segment⟩
  have hcovered : mainRange pack = .ok ⟨a, c⟩ := mainRange_of_owner rfl
  have hvalid : (GitCompactionPlan.mk (first, last)).validateReplacement pack = .ok () := by
    simp only [validateReplacement, mainRange_of_owner howner₁, mainRange_of_owner howner₂, hlink,
      hcount₁, hcount₂, hcovered, bind, Except.bind]
    simp [pack, GitPoolPackStorage.segment?, pure, Except.pure]
  refine ⟨pack, ?_, ?_⟩
  · simp only [replacement, mainRange_of_owner howner₁, mainRange_of_owner howner₂, bind,
      Except.bind]
    rw [hvalid]
    rfl
  · have hrange : c + 1 = a + 2 ^ (k + 1) := by
      rw [pow_succ]
      omega
    have howner : pack.owner = .main a c := rfl
    exact .cons a howner hrange (.nil _ _)

end ScopeVcs
