import ScopeVcs.Lib.Transition
import ScopeVcs.Repository.GitCompaction

/-! # Main packs under pushes and compactions

Pushes append packs and compactions merge neighbours, in any interleaving. Every state keeps a
linked chain of packs whose sizes form a lazy binary counter: a push increments it, and merging the
leftmost pair of equal sizes carries.
-/

namespace ScopeVcs

/-- The main packs of a repository and its current head. `rejected` records whether a byte limit
has so far kept `select` from the leftmost pair of equal sizes. -/
structure MainPacks where
  packs : List GitPoolPack
  head : Option GitHead
  rejected : Bool
  deriving DecidableEq

namespace MainPacks

def empty : MainPacks := ⟨[], none, false⟩

/-- The number of pushes accepted so far. -/
def pushSequence (main : MainPacks) : ℕ :=
  match main.head with
  | none => 0
  | some head => head.pushSequence

/-- A push to main stores the pack that `validate_main_pack_advance` accepted. -/
def push (main : MainPacks) (next : GitHead) (pack : GitPoolPack) :
    Except MainPackAdvanceError MainPacks := do
  validateMainPackAdvance main.head next pack
  return { main with packs := main.packs ++ [pack], head := some next }

/-- The packs after the two selected ones gave way to `replacement`. -/
def replaceSelected (packs : List GitPoolPack) (plan : GitCompactionPlan)
    (replacement : GitPoolPack) : List GitPoolPack :=
  packs.flatMap fun pack =>
    if pack = plan.selectedPacks.1 then [replacement]
    else if pack = plan.selectedPacks.2 then []
    else [pack]

/-- One compaction: select a pair and replace it by one pack stored as `segment`. -/
def compact (main : MainPacks) (maxSourceBytes : ℕ) (segment : GitSegmentRef) :
    Except GitCompactionError MainPacks := do
  let rejected := main.rejected || byteLimitRejects main.packs maxSourceBytes
  match ← GitCompactionPlan.select main.packs maxSourceBytes with
  | none => return { main with rejected }
  | some plan =>
    let replacement ← plan.replacement segment
    return { main with packs := replaceSelected main.packs plan replacement, rejected }

/-- What can happen to the main packs. -/
inductive Step : MainPacks → MainPacks → Prop where
  | push {main main' : MainPacks} {next : GitHead} {pack : GitPoolPack}
      (h : main.push next pack = .ok main') : Step main main'
  | compact {main main' : MainPacks} {maxSourceBytes : ℕ} {segment : GitSegmentRef}
      (h : main.compact maxSourceBytes segment = .ok main') : Step main main'

/-- The states that pushes and compactions lead to, starting from no packs. -/
abbrev Reachable : MainPacks → Prop := Transition.Reachable (· = empty) Step

theorem Reachable.empty : Reachable empty := ⟨_, rfl, .refl⟩

/-! ## The invariant -/

/-- The packs form a linked chain up to the current head whose exponents `ks` are non-increasing
unless a byte limit interfered. -/
structure Counter (main : MainPacks) (ks : List ℕ) : Prop where
  linked : Linked 1 [] main.packs ks (main.pushSequence + 1) (headPrerequisites main.head)
  bound : main.pushSequence ≤ U64.maxU64
  sorted : main.rejected = false → ks.Pairwise (· ≥ ·)

theorem counter_empty : Counter empty [] :=
  ⟨.nil 1 [], Nat.zero_le _, fun _ => .nil⟩

namespace Counter

variable {main main' : MainPacks} {ks : List ℕ}

theorem chain (h : Counter main ks) : validateMainChain main.packs = .ok (chainEntries 0 ks) :=
  validateMainChain_of_linked h.linked (Nat.succ_le_succ h.bound)

/-- The number of pushes is the value of the counter. -/
theorem value_eq (h : Counter main ks) : BinaryCounter.value ks = main.pushSequence := by
  have := h.linked.next_eq
  omega

/-- A push increments the counter. -/
theorem push {next : GitHead} {pack : GitPoolPack} (h : Counter main ks)
    (hpush : main.push next pack = .ok main') : Counter main' (ks ++ [0]) := by
  simp only [MainPacks.push, bind, Except.bind] at hpush
  split at hpush
  · cases hpush
  rename_i hok
  cases hpush
  obtain ⟨hseq, howner, hhead, hpre⟩ := validateMainPackAdvance_eq_ok.mp hok
  have hnext : next.pushSequence = main.pushSequence + 1 ∧ next.pushSequence ≤ U64.maxU64 := by
    cases hcur : main.head with
    | none =>
      simp only [nextPushSequence, hcur, Option.some_inj] at hseq
      simp [pushSequence, hcur, ← hseq, U64.maxU64]
    | some head =>
      simp only [nextPushSequence, hcur, U64.checkedAdd_eq_some] at hseq
      simp [pushSequence, hcur, hseq]
  refine ⟨h.linked.append ?_, hnext.2, fun hrej => BinaryCounter.pairwise_push (h.sorted hrej)⟩
  rw [← hpre, ← hnext.1]
  have hlast : Linked (next.pushSequence + 1) [pack.headOid] [] [] (next.pushSequence + 1)
      [next.headOid] := hhead ▸ .nil _ _
  exact .cons _ howner rfl hlast

/-- Replacing two neighbours of a chain of distinct packs leaves all others in place. -/
theorem replaceSelected_eq {pre post : List GitPoolPack} {first last : GitPoolPack}
    (hnodup : (pre ++ first :: last :: post).Nodup) (replacement : GitPoolPack) :
    replaceSelected (pre ++ first :: last :: post) ⟨(first, last)⟩ replacement =
      pre ++ replacement :: post := by
  have hother : ∀ packs : List GitPoolPack, first ∉ packs → last ∉ packs →
      replaceSelected packs ⟨(first, last)⟩ replacement = packs := by
    intro packs hfirst hlast
    induction packs with
    | nil => rfl
    | cons pack packs ih =>
      simp only [List.mem_cons, not_or] at hfirst hlast
      have htail := ih hfirst.2 hlast.2
      simp only [replaceSelected] at htail
      simp [replaceSelected, Ne.symm hfirst.1, Ne.symm hlast.1, htail]
  rw [List.nodup_append] at hnodup
  obtain ⟨-, hcons, hdisj⟩ := hnodup
  simp only [List.nodup_cons, List.mem_cons, not_or] at hcons
  have hpre := hother pre (fun hm => hdisj _ hm first (by simp) rfl)
    (fun hm => hdisj _ hm last (by simp) rfl)
  have hpost := hother post hcons.1.2 hcons.2.1
  simp only [replaceSelected] at hpre hpost
  simp [replaceSelected, hpre, hpost, Ne.symm hcons.1.1]

/-- A compaction always succeeds and keeps the number of pushes. Where it merges, it carries at the
leftmost pair, so the counter stays non-increasing while no byte limit interferes. -/
theorem compact (h : Counter main ks) (max : ℕ) (segment : GitSegmentRef) :
    ∃ main' ks', main.compact max segment = .ok main' ∧ Counter main' ks' := by
  rcases GitCompactionPlan.select_of_linked h.linked (Nat.succ_le_succ h.bound) max with
    ⟨-, hselect⟩ | ⟨pre, first, last, post, kpre, k, kpost, hpacks, hks, hlen, hstart, hselect⟩
  · refine ⟨{ main with rejected := main.rejected || byteLimitRejects main.packs max }, ks, ?_,
      ⟨h.linked, h.bound, fun hrej => h.sorted (Bool.or_eq_false_iff.mp hrej).1⟩⟩
    simp [MainPacks.compact, hselect, bind, Except.bind, pure, Except.pure]
  have hlinked := h.linked
  rw [hpacks, hks] at hlinked
  obtain ⟨ks₁, ks₂, mid, mids, hsplit, hlinkedPre, hrest⟩ := hlinked.split
  obtain ⟨rfl, rfl⟩ := List.append_inj hsplit (by rw [← hlinkedPre.length_eq, hlen])
  have hrest' : Linked mid mids ([first, last] ++ post) ([k, k] ++ kpost)
    (main.pushSequence + 1) (headPrerequisites main.head) := hrest
  obtain ⟨ks₃, ks₄, mid', mids', hsplit, hpair, hlinkedPost⟩ := hrest'.split
  obtain ⟨rfl, rfl⟩ := List.append_inj hsplit hpair.length_eq
  have hmid : mid' ≤ U64.maxU64 + 1 := by
    have := hlinkedPost.next_eq
    have := h.bound
    omega
  obtain ⟨pack, hreplacement, hmerged⟩ :=
    GitCompactionPlan.replacement_of_linked hpair hmid segment
  have hnodup : (pre ++ first :: last :: post).Nodup := hpacks ▸ h.linked.nodup
  refine ⟨{ main with
      packs := pre ++ pack :: post
      rejected := main.rejected || byteLimitRejects main.packs max }, kpre ++ (k + 1) :: kpost,
    ?_, ⟨hlinkedPre.append (hmerged.append hlinkedPost), h.bound, fun hrej => ?_⟩⟩
  · simp only [MainPacks.compact, hselect, bind, Except.bind, hreplacement, pure, Except.pure]
    rw [hpacks, replaceSelected_eq hnodup]
  · obtain ⟨hrej, hbytes⟩ := Bool.or_eq_false_iff.mp hrej
    have hsorted := h.sorted hrej
    have hfront := isChain_of_not_byteLimitRejects h.chain hbytes
    rw [hstart] at hfront
    subst hks
    have htake : (kpre ++ k :: k :: kpost).take (kpre.length + 1) = kpre ++ [k] := by
      simp [List.take_append, List.take_of_length_le]
    have hgt : (kpre ++ [k]).Pairwise (· > ·) :=
      BinaryCounter.pairwise_gt (htake ▸ hsorted.take) (htake ▸ hfront)
    rw [List.pairwise_append] at hgt
    exact BinaryCounter.pairwise_merge hsorted fun a ha =>
      (ne_of_lt (hgt.2.2 a ha k (by simp))).symm

end Counter

theorem Reachable.counter {main : MainPacks} (h : Reachable main) : ∃ ks, Counter main ks := by
  refine Transition.Reachable.invariant (fun main => ∃ ks, Counter main ks) h ?_ ?_
  · rintro _ rfl
    exact ⟨[], counter_empty⟩
  rintro main main' - ⟨ks, hks⟩ hstep
  cases hstep with
  | push hpush => exact ⟨_, hks.push hpush⟩
  | @compact max segment hcompact =>
    obtain ⟨main'', ks', hok, hks'⟩ := hks.compact max segment
    rw [hok] at hcompact
    cases hcompact
    exact ⟨ks', hks'⟩

/-! ## What the chain covers -/

/-- The push sequences a pack covers, in order. -/
def sequences (pack : GitPoolPack) : List ℕ :=
  match pack.owner.mainSequences with
  | some (first, last) => List.range' first (last + 1 - first)
  | none => []

/-- The number of pushes a pack covers. -/
def rangeSize (pack : GitPoolPack) : ℕ := (sequences pack).length

theorem sequences_of_owner {pack : GitPoolPack} {first last n : ℕ}
    (howner : pack.owner = .main first last) (hlast : last + 1 = first + n) :
    sequences pack = List.range' first n := by
  have hsize : last + 1 - first = n := by omega
  simp [sequences, GitPoolPackOwner.mainSequences, howner, hsize]

section Linked

variable {first next : ℕ} {pre heads : List String} {packs : List GitPoolPack} {ks : List ℕ}

theorem flatMap_sequences (h : Linked first pre packs ks next heads) :
    packs.flatMap sequences = List.range' first (BinaryCounter.value ks) := by
  induction h with
  | nil => rfl
  | @cons pack last _ k _ _ ks first howner hlast _ ih =>
    rw [List.flatMap_cons, ih, sequences_of_owner howner hlast, hlast, BinaryCounter.value,
      BinaryCounter.value, List.map_cons, List.sum_cons, List.range'_append_1]

theorem map_rangeSize (h : Linked first pre packs ks next heads) :
    packs.map rangeSize = ks.map (2 ^ ·) := by
  induction h with
  | nil => rfl
  | cons first howner hlast _ ih =>
    rw [List.map_cons, List.map_cons, ih, rangeSize, sequences_of_owner howner hlast,
      List.length_range']

theorem prerequisites_of_linked (h : Linked first pre packs ks next heads) :
    (∀ pack ∈ packs.head?, pack.prerequisites = pre) ∧
      packs.IsChain (fun previous pack => pack.prerequisites = [previous.headOid]) := by
  induction h with
  | nil => simp
  | @cons pack _ _ _ _ packs _ first howner hlast hrest ih =>
    refine ⟨by simp, ?_⟩
    cases packs with
    | nil => exact .singleton _
    | cons next packs => exact List.isChain_cons_cons.mpr ⟨ih.1 next (by simp), ih.2⟩

/-- What follows a chain builds on the head of its last pack. -/
theorem heads_of_linked (h : Linked first pre packs ks next heads) :
    heads = (packs.getLast?.map fun pack => [pack.headOid]).getD pre := by
  induction h with
  | nil => rfl
  | @cons pack _ _ _ _ packs _ first howner hlast hrest ih =>
    cases packs with
    | nil => simpa using ih
    | cons next packs =>
      obtain ⟨last, hlast⟩ : ∃ last, (next :: packs).getLast? = some last :=
        ⟨_, List.getLast?_eq_some_getLast (by simp)⟩
      rw [ih, List.getLast?_cons_cons, hlast]
      rfl

end Linked

/-- Main packs stay readable and compactable. After any interleaving of pushes and compactions the
chain validates and covers the accepted pushes `1..n` once each, in order, in ranges of powers of
two that link to the current head. While no byte limit has interfered the sizes are non-increasing,
and once `select` finds nothing they are the binary expansion of `n`. -/
theorem Reachable.chain_and_counter {main : MainPacks} (h : Reachable main) :
    (∃ entries, validateMainChain main.packs = .ok entries ∧
        entries.map (·.count) = main.packs.map rangeSize) ∧
      main.packs.flatMap sequences = List.range' 1 main.pushSequence ∧
      (∀ pack ∈ main.packs, U64.isPowerOfTwo (rangeSize pack) = true) ∧
      (∀ pack ∈ main.packs.head?, pack.prerequisites = []) ∧
      main.packs.IsChain (fun previous pack => pack.prerequisites = [previous.headOid]) ∧
      main.packs.getLast?.map (·.headOid) = main.head.map (·.headOid) ∧
      (∀ max segment, ∃ main', main.compact max segment = .ok main') ∧
      (main.rejected = false →
        (main.packs.map rangeSize).Pairwise (· ≥ ·) ∧
        ∀ max, GitCompactionPlan.select main.packs max = .ok none →
          byteLimitRejects main.packs max = false →
            main.packs.map rangeSize =
                main.pushSequence.bitIndices.reverse.map (2 ^ ·) ∧
              main.packs.length ≤ 64) := by
  obtain ⟨ks, hks⟩ := h.counter
  have hsizes := map_rangeSize hks.linked
  have hvalue := hks.value_eq
  obtain ⟨hstart, hlinks⟩ := prerequisites_of_linked hks.linked
  refine ⟨⟨chainEntries 0 ks, hks.chain, by simp [hsizes]⟩, ?_, ?_, hstart, hlinks, ?_, ?_, ?_⟩
  · rw [flatMap_sequences hks.linked, hvalue]
  · intro pack hpack
    have hmem : rangeSize pack ∈ ks.map (2 ^ ·) := hsizes ▸ List.mem_map_of_mem hpack
    obtain ⟨k, -, hk⟩ := List.mem_map.mp hmem
    exact U64.isPowerOfTwo_iff.mpr ⟨k, hk.symm⟩
  · have hheads := heads_of_linked hks.linked
    cases hhead : main.head <;> cases hlast : main.packs.getLast? <;>
      simp_all [headPrerequisites]
  · intro max segment
    obtain ⟨main', _, hok, -⟩ := hks.compact max segment
    exact ⟨main', hok⟩
  · intro hrej
    have hsorted := hks.sorted hrej
    rw [hsizes]
    refine ⟨List.pairwise_map.mpr (hsorted.imp fun hab => Nat.pow_le_pow_right two_pos hab), ?_⟩
    intro max hselect hbytes
    have hchain := isChain_of_not_byteLimitRejects hks.chain hbytes
    rcases GitCompactionPlan.select_of_linked hks.linked (Nat.succ_le_succ hks.bound) max with
      ⟨hnone, -⟩ | ⟨_, _, _, _, _, _, _, _, _, _, _, hsome⟩
    · rw [hnone] at hchain
      have hgt := BinaryCounter.pairwise_gt hsorted hchain
      refine ⟨?_, ?_⟩
      · rw [← hvalue, ← BinaryCounter.eq_bitIndices hgt]
      · rw [hks.linked.length_eq]
        refine BinaryCounter.length_le hgt ?_
        have := hks.bound
        rw [hvalue]
        simp only [U64.maxU64] at this
        omega
    · rw [hsome] at hselect
      cases hselect

/-- The pack of push `n`, inline and empty, on top of the heads `prerequisites`. -/
def pushedPack (n : ℕ) (headOid : String) (prerequisites : List String) : GitPoolPack :=
  ⟨headOid, .main n n, headOid, prerequisites, .inline []⟩

/-- Two pushes and a compaction leave one pack that covers both. -/
theorem chain_and_counter_two_pushes :
    ([GitPoolPack.mk "s" (.main 1 2) "b" [] (.segment ⟨"s", "", 0, 0⟩)].flatMap sequences =
      List.range' 1 2) ∧
    ([GitPoolPack.mk "s" (.main 1 2) "b" [] (.segment ⟨"s", "", 0, 0⟩)].map rangeSize =
      (Nat.bitIndices 2).reverse.map (2 ^ ·)) := by
  have hfirst : empty.push ⟨"a", 1, 1, ""⟩ (pushedPack 1 "a" []) =
      .ok ⟨[pushedPack 1 "a" []], some ⟨"a", 1, 1, ""⟩, false⟩ := by decide
  have hsecond : push ⟨[pushedPack 1 "a" []], some ⟨"a", 1, 1, ""⟩, false⟩ ⟨"b", 2, 2, ""⟩
      (pushedPack 2 "b" ["a"]) =
      .ok ⟨[pushedPack 1 "a" [], pushedPack 2 "b" ["a"]], some ⟨"b", 2, 2, ""⟩, false⟩ := by decide
  have hmerge : compact ⟨[pushedPack 1 "a" [], pushedPack 2 "b" ["a"]], some ⟨"b", 2, 2, ""⟩, false⟩
      0 ⟨"s", "", 0, 0⟩ = .ok ⟨[⟨"s", .main 1 2, "b", [], .segment ⟨"s", "", 0, 0⟩⟩],
        some ⟨"b", 2, 2, ""⟩, false⟩ := by decide
  have hreach : Reachable ⟨[⟨"s", .main 1 2, "b", [], .segment ⟨"s", "", 0, 0⟩⟩],
      some ⟨"b", 2, 2, ""⟩, false⟩ :=
    ((Reachable.empty.tail (.push hfirst)).tail (.push hsecond)).tail (.compact hmerge)
  have hall := Reachable.chain_and_counter hreach
  exact ⟨hall.2.1, ((hall.2.2.2.2.2.2.2 rfl).2 0 (by decide) (by decide)).1⟩

end MainPacks

end ScopeVcs
