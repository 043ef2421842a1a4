import ScopeVcs.Compaction.Pool
import ScopeVcs.Repository.MainPacks

/-! # The chain of the stored main packs

The main packs of a repository, in the order of their first sequences, are the linked chain of its
pushes. A replacement that validates takes the place of two neighbours.
-/

namespace ScopeVcs

open Compaction.GitPool Mutation

/-! ## Linked chains -/

namespace Linked

variable {first next k : ℕ} {pre heads : List String} {packs : List GitPoolPack} {ks : List ℕ}

theorem first_le_firstSequence (h : Linked first pre packs ks next heads) {pack : GitPoolPack}
    (hp : pack ∈ packs) : ∃ a b, pack.owner = .main a b ∧ firstSequence pack = a ∧ first ≤ a := by
  induction h with
  | nil => cases hp
  | @cons _ _ _ k _ _ _ first howner hlast _ ih =>
    rcases List.mem_cons.mp hp with rfl | hp
    · exact ⟨_, _, howner, by simp [firstSequence, howner, GitPoolPackOwner.mainSequences], le_rfl⟩
    · obtain ⟨a, b, howner', hfirst, hle⟩ := ih hp
      have hpos : 1 ≤ 2 ^ k := Nat.one_le_two_pow
      exact ⟨a, b, howner', hfirst, by omega⟩

/-- The first sequences of a chain increase. -/
theorem pairwise_firstSequence (h : Linked first pre packs ks next heads) :
    packs.Pairwise fun a b => firstSequence a < firstSequence b := by
  induction h with
  | nil => exact .nil
  | @cons pack last _ k _ _ _ first howner hlast hrest ih =>
    refine .cons (fun other hother => ?_) ih
    obtain ⟨a, b, -, hfirst, hle⟩ := hrest.first_le_firstSequence hother
    have hpos : 1 ≤ 2 ^ k := Nat.one_le_two_pow
    have hpack : firstSequence pack = first := by
      simp [firstSequence, howner, GitPoolPackOwner.mainSequences]
    omega

/-- Two packs of a chain whose ranges meet are neighbours. -/
theorem eq_append_of_meet (h : Linked first pre packs ks next heads) {p q : GitPoolPack} {a b c : ℕ}
    (hp : p ∈ packs) (hq : q ∈ packs) (hpowner : p.owner = .main a b)
    (hqowner : q.owner = .main (b + 1) c) : ∃ front rest, packs = front ++ p :: q :: rest := by
  have hqfirst : firstSequence q = b + 1 := by
    simp [firstSequence, hqowner, GitPoolPackOwner.mainSequences]
  obtain ⟨front, rest, rfl⟩ := List.append_of_mem hp
  obtain ⟨ks₁, ks₂, mid, mids, -, -, hrest⟩ := h.split
  obtain ⟨last, k, ks', -, howner, hlast, -, htail⟩ := hrest.cons_inv
  rw [hpowner] at howner
  cases howner
  have hpos : 1 ≤ 2 ^ k := Nat.one_le_two_pow
  have hpfirst : firstSequence p = a := by
    simp [firstSequence, hpowner, GitPoolPackOwner.mainSequences]
  have hpairwise := h.pairwise_firstSequence
  rw [List.pairwise_append] at hpairwise
  have hmem : q ∈ rest := by
    rcases List.mem_append.mp hq with hfront | hcons
    · have hlt := hpairwise.2.2 q hfront p List.mem_cons_self
      omega
    · rcases List.mem_cons.mp hcons with rfl | hmem
      · omega
      · exact hmem
  cases rest with
  | nil => cases hmem
  | cons r rest =>
    obtain ⟨rlast, rk, rks, -, hrowner, -, -, -⟩ := htail.cons_inv
    have hrfirst : firstSequence r = b + 1 := by
      simp [firstSequence, hrowner, GitPoolPackOwner.mainSequences]
    rcases List.mem_cons.mp hmem with rfl | hlater
    · exact ⟨front, rest, rfl⟩
    · have hlt := (List.pairwise_cons.mp (List.pairwise_cons.mp hpairwise.2.1).2).1 q hlater
      omega

end Linked

/-! ## Replacements -/

theorem mainRange_eq_ok {pack : GitPoolPack} {range : MainRange} (h : mainRange pack = .ok range) :
    pack.owner = .main range.first range.last := by
  rw [mainRange] at h
  cases howner : pack.owner with
  | request requestId scope => simp [howner, GitPoolPackOwner.mainSequences] at h
  | main first last =>
    simp only [howner, GitPoolPackOwner.mainSequences] at h
    cases h
    rfl

theorem validateLink_eq_ok {previous next : GitPoolPack} {previousRange nextRange : MainRange}
    {u : Unit} (h : validateLink previous previousRange next nextRange = .ok u) :
    previousRange.last + 1 = nextRange.first := by
  rw [validateLink] at h
  split at h
  · cases h
  · rename_i hadd
    exact (U64.checkedAdd_eq_some.mp (not_not.mp hadd)).1

theorem MainRange.count_eq_ok {range : MainRange} {count : ℕ} (h : range.count = .ok count) :
    range.last + 1 = range.first + count := by
  rw [MainRange.count] at h
  split at h
  · rename_i n hn
    cases h
    obtain ⟨distance, hsub, hadd⟩ := Option.bind_eq_some_iff.mp hn
    have hsub' := U64.checkedSub_eq_some.mp hsub
    have hadd' := U64.checkedAdd_eq_some.mp hadd
    omega
  · cases h

/-- What a valid replacement shares with the two packs of its plan. -/
theorem GitCompactionPlan.validateReplacement_eq_ok {p q replacement : GitPoolPack} {u : Unit}
    (h : (GitCompactionPlan.mk (p, q)).validateReplacement replacement = .ok u) :
    ∃ a b c n, p.owner = .main a b ∧ q.owner = .main (b + 1) c ∧ b + 1 = a + n ∧ c + 1 = b + 1 + n ∧
      replacement.owner = .main a c ∧ replacement.prerequisites = p.prerequisites ∧
      replacement.headOid = q.headOid ∧
      replacement.storage.segment?.map GitSegmentRef.segmentId = some replacement.id := by
  simp only [validateReplacement, except_bind_eq_ok] at h
  obtain ⟨pRange, hp, qRange, hq, u₁, hlink, pCount, hpcount, qCount, hqcount, h⟩ := h
  have hmeet := validateLink_eq_ok hlink
  have hpspan := MainRange.count_eq_ok hpcount
  have hqspan := MainRange.count_eq_ok hqcount
  split at h
  · cases h
  · rename_i hsame
    have hcount : pCount = qCount := not_not.mp hsame
    obtain ⟨covered, hcovered, h⟩ := except_bind_eq_ok.mp h
    split at h
    · cases h
    · rename_i hboundary
      simp only [not_or, not_not] at hboundary
      obtain ⟨hfirst, hlast, hpre, hhead, hsegment⟩ := hboundary
      have howner := mainRange_eq_ok hcovered
      have hqowner := mainRange_eq_ok hq
      rw [hfirst, hlast] at howner
      rw [← hmeet] at hqowner
      exact ⟨pRange.first, pRange.last, qRange.last, pCount, mainRange_eq_ok hp, hqowner, hpspan,
        by omega, howner, hpre, hhead, hsegment⟩

/-- A chain stays one when a replacement takes the place of the packs of its plan. -/
theorem Linked.replace {first next : ℕ} {pre heads : List String} {packs : List GitPoolPack}
    {ks : List ℕ} {p q replacement : GitPoolPack} {u : Unit}
    (h : Linked first pre packs ks next heads) (hp : p ∈ packs) (hq : q ∈ packs)
    (hvalid : (GitCompactionPlan.mk (p, q)).validateReplacement replacement = .ok u) :
    ∃ front rest ks', packs = front ++ p :: q :: rest ∧
      Linked first pre (front ++ replacement :: rest) ks' next heads := by
  obtain ⟨a, b, c, n, hpowner, hqowner, hpspan, hqspan, howner, hpre, hhead, -⟩ :=
    GitCompactionPlan.validateReplacement_eq_ok hvalid
  obtain ⟨front, rest, rfl⟩ := h.eq_append_of_meet hp hq hpowner hqowner
  obtain ⟨ks₁, ks₂, mid, mids, rfl, hfront, hpair⟩ := h.split
  obtain ⟨_, k, _, rfl, hpowner', hpspan', hmids, htail⟩ := hpair.cons_inv
  rw [hpowner] at hpowner'
  cases hpowner'
  obtain ⟨_, _, ks', rfl, hqowner', -, hlink, hrest⟩ := htail.cons_inv
  rw [hqowner] at hqowner'
  cases hqowner'
  have hspan : c + 1 = a + 2 ^ (k + 1) := by
    rw [pow_succ]
    omega
  refine ⟨front, rest, ks₁ ++ (k + 1) :: ks', rfl, hfront.append ?_⟩
  rw [← hmids, ← hpre]
  rw [← hhead] at hrest
  exact .cons a howner hspan hrest

end ScopeVcs
