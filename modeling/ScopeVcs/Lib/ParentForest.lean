import Mathlib.Data.Finset.Card
import Mathlib.Logic.Function.Basic
import Mathlib.Logic.Relation

/-! # Forests of parents

A function that gives each node its parent, a root being its own, is a forest when every node climbs to a
root. Two nodes are in one tree when they have one root. A node may be moved to the parent of its
parent, which leaves every root as it is, and a root may be put below another, which joins two trees:
after a number of joins two nodes are in one tree when the joins connect them.
-/

namespace ParentForest

variable {α : Type*} {parent : α → α} {a b l r s : α} {k m : ℕ}

/-- A node reaches a root after so many steps. -/
inductive Climbs (parent : α → α) : ℕ → α → α → Prop where
  | root {r : α} (h : parent r = r) : Climbs parent 0 r r
  | step {k : ℕ} {a r : α} (h : parent a ≠ a) (hr : Climbs parent k (parent a) r) :
      Climbs parent (k + 1) a r

/-- The root of a node. -/
def HasRoot (parent : α → α) (a r : α) : Prop := ∃ k, Climbs parent k a r

/-- Every node has a root. -/
def IsForest (parent : α → α) : Prop := ∀ a, ∃ r, HasRoot parent a r

/-- Two nodes have one root. -/
def SameTree (parent : α → α) (a b : α) : Prop := ∃ r, HasRoot parent a r ∧ HasRoot parent b r

namespace Climbs

theorem isRoot (h : Climbs parent k a r) : parent r = r := by
  induction h with
  | root h => exact h
  | step _ _ ih => exact ih

theorem unique (h : Climbs parent k a r) (h' : Climbs parent m a s) : k = m ∧ r = s := by
  induction h generalizing m with
  | root hroot =>
    cases h' with
    | root _ => exact ⟨rfl, rfl⟩
    | step hne _ => exact absurd hroot hne
  | step hne _ ih =>
    cases h' with
    | root hroot => exact absurd hroot hne
    | step _ hr =>
      obtain ⟨rfl, rfl⟩ := ih hr
      exact ⟨rfl, rfl⟩

/-- On the way up the node `i` steps further climbs `i` steps less. -/
theorem iterate (h : Climbs parent k a r) {i : ℕ} (hi : i ≤ k) :
    Climbs parent (k - i) (parent^[i] a) r := by
  induction i with
  | zero => exact h
  | succ i ih =>
    have hlast := ih (by omega)
    rw [Function.iterate_succ_apply']
    obtain ⟨n, hn⟩ : ∃ n, k - i = n + 1 := ⟨k - i - 1, by omega⟩
    rw [hn] at hlast
    cases hlast with
    | step _ hr =>
      have hsteps : k - (i + 1) = n := by omega
      rw [hsteps]
      exact hr

/-- Whoever is not a root has a shorter climb from the parent of the parent. -/
theorem parent_parent (h : Climbs parent k a r) (hne : parent a ≠ a) :
    ∃ m < k, Climbs parent m (parent (parent a)) r := by
  cases h with
  | root hroot => exact absurd hroot hne
  | @step k _ _ _ hr =>
    cases hr with
    | root hroot =>
      refine ⟨0, Nat.succ_pos 0, ?_⟩
      rw [hroot]
      exact .root hroot
    | @step m _ _ _ hgrand => exact ⟨m, by omega, hgrand⟩

/-- A climb among the nodes of a finite set is shorter than the set is large. -/
theorem lt_card [DecidableEq α] {nodes : Finset α} (hnodes : ∀ b ∈ nodes, parent b ∈ nodes)
    (h : Climbs parent k a r) (ha : a ∈ nodes) : k < nodes.card := by
  have hmem : ∀ i, parent^[i] a ∈ nodes := by
    intro i
    induction i with
    | zero => exact ha
    | succ i ih =>
      rw [Function.iterate_succ_apply']
      exact hnodes _ ih
  have hinj : Set.InjOn (fun i => parent^[i] a) (Finset.range (k + 1)) := by
    intro i hi j hj hij
    rw [Finset.coe_range, Set.mem_Iio] at hi hj
    have hclimbs := h.iterate (Nat.le_of_lt_succ hi)
    have hclimbs' := h.iterate (Nat.le_of_lt_succ hj)
    rw [show parent^[i] a = parent^[j] a from hij] at hclimbs
    have hsame := (hclimbs.unique hclimbs').1
    omega
  have hcard := Finset.card_le_card_of_injOn (fun i => parent^[i] a) (fun i _ => hmem i) hinj
  rwa [Finset.card_range] at hcard

end Climbs

theorem HasRoot.unique (h : HasRoot parent a r) (h' : HasRoot parent a s) : r = s := by
  obtain ⟨_, hk⟩ := h
  obtain ⟨_, hm⟩ := h'
  exact (hk.unique hm).2

theorem isForest_id : IsForest (id : α → α) := fun a => ⟨a, 0, .root rfl⟩

theorem sameTree_id : SameTree (id : α → α) a b ↔ a = b := by
  constructor
  · rintro ⟨r, ⟨_, ha⟩, ⟨_, hb⟩⟩
    exact (ha.unique (.root rfl)).2.symm.trans (hb.unique (.root rfl)).2
  · rintro rfl
    exact ⟨a, ⟨0, .root rfl⟩, ⟨0, .root rfl⟩⟩

/-- In a forest the trees are the classes of an equivalence. -/
theorem equivalence_sameTree (hforest : IsForest parent) : Equivalence (SameTree parent) where
  refl a := by
    obtain ⟨r, hr⟩ := hforest a
    exact ⟨r, hr, hr⟩
  symm := by
    rintro a b ⟨r, ha, hb⟩
    exact ⟨r, hb, ha⟩
  trans := by
    rintro a b c ⟨r, ha, hb⟩ ⟨s, hb', hc⟩
    rw [hb'.unique hb] at hc
    exact ⟨r, ha, hc⟩

/-! ## Connections -/

/-- The trees are the classes of what the pairs of a relation connect. -/
structure Represents (parent : α → α) (R : α → α → Prop) : Prop where
  forest : IsForest parent
  sameTree_iff : ∀ a b, SameTree parent a b ↔ Relation.EqvGen R a b

theorem represents_id : Represents (id : α → α) (fun _ _ => False) where
  forest := isForest_id
  sameTree_iff a b := by
    rw [sameTree_id]
    constructor
    · rintro rfl
      exact .refl a
    · intro h
      induction h with
      | rel _ _ h => exact h.elim
      | refl _ => rfl
      | symm _ _ _ ih => exact ih.symm
      | trans _ _ _ _ _ ih ih' => exact ih.trans ih'

/-- What a forest represents depends on its roots alone. -/
theorem Represents.of_hasRoot {R : α → α → Prop} {parent' : α → α} (h : Represents parent R)
    (hroots : ∀ a r, HasRoot parent' a r ↔ HasRoot parent a r) : Represents parent' R where
  forest a := by
    obtain ⟨r, hr⟩ := h.forest a
    exact ⟨r, (hroots a r).mpr hr⟩
  sameTree_iff a b := by
    rw [← h.sameTree_iff]
    unfold SameTree
    simp only [hroots]

theorem Represents.congr {R R' : α → α → Prop} (h : Represents parent R)
    (hsame : ∀ a b, R a b ↔ R' a b) : Represents parent R' := by
  have heq : R = R' := by
    funext a b
    exact propext (hsame a b)
  exact heq ▸ h

section Updates

variable [DecidableEq α]

/-! ## Moving a node up -/

/-- A node is put below the parent of its parent. -/
def halve (parent : α → α) (a : α) : α → α := Function.update parent a (parent (parent a))

/-- Whoever climbed to a root does so still, in no more steps. -/
theorem Climbs.halve (hne : parent a ≠ a) (ha : Climbs parent m a s) (hb : Climbs parent k b r) :
    ∃ k' ≤ k, Climbs (halve parent a) k' b r := by
  have hself : ParentForest.halve parent a a = parent (parent a) := Function.update_self _ _ _
  have hother : ∀ {c}, c ≠ a → ParentForest.halve parent a c = parent c := fun hc =>
    Function.update_of_ne hc _ _
  induction k using Nat.strong_induction_on generalizing b with
  | _ k ih =>
    cases hb with
    | root hroot =>
      have hra : r ≠ a := fun h => hne (h ▸ hroot)
      exact ⟨0, le_rfl, .root ((hother hra).trans hroot)⟩
    | step hnb hr =>
      rename_i n
      by_cases hba : b = a
      · subst hba
        cases hr with
        | root hroot =>
          -- The parent is the root.
          have hrb : parent b ≠ b := hnb
          refine ⟨1, le_rfl, .step ?_ ?_⟩
          · rw [hself, hroot]
            exact hrb
          · rw [hself, hroot]
            exact .root ((hother hrb).trans hroot)
        | step hnp hgrand =>
          rename_i n
          obtain ⟨k', hk', hclimbs⟩ := ih n (by omega) hgrand
          refine ⟨k' + 1, by omega, .step ?_ (hself ▸ hclimbs)⟩
          rw [hself]
          intro hcycle
          rw [hcycle] at hgrand
          have hheights := (hgrand.unique (.step hnb (.step hnp (hcycle ▸ hgrand)))).1
          omega
      · obtain ⟨k', hk', hclimbs⟩ := ih n (by omega) hr
        refine ⟨k' + 1, by omega, .step ?_ ?_⟩
        · rw [hother hba]
          exact hnb
        · rw [hother hba]
          exact hclimbs

/-- Roots stay what they are. -/
theorem hasRoot_halve (hforest : IsForest parent) (hne : parent a ≠ a) :
    HasRoot (halve parent a) b r ↔ HasRoot parent b r := by
  obtain ⟨s, m, ha⟩ := hforest a
  have hkeeps : ∀ {c t}, HasRoot parent c t → HasRoot (halve parent a) c t := by
    rintro c t ⟨k, hc⟩
    obtain ⟨k', -, hclimbs⟩ := Climbs.halve hne ha hc
    exact ⟨k', hclimbs⟩
  refine ⟨fun h => ?_, hkeeps⟩
  obtain ⟨t, ht⟩ := hforest b
  rw [h.unique (hkeeps ht)]
  exact ht

theorem isForest_halve (hforest : IsForest parent) (hne : parent a ≠ a) :
    IsForest (halve parent a) := by
  intro b
  obtain ⟨r, hr⟩ := hforest b
  exact ⟨r, (hasRoot_halve hforest hne).mpr hr⟩

/-! ## Joining trees -/

/-- Putting a root below another changes the root of its tree and of no other. -/
theorem hasRoot_link (hforest : IsForest parent) (hl : parent l = l) (hr : parent r = r)
    (hlr : l ≠ r) : HasRoot (Function.update parent l r) b s ↔
      (HasRoot parent b l ∧ s = r) ∨ (HasRoot parent b s ∧ s ≠ l) := by
  have hself : Function.update parent l r l = r := Function.update_self _ _ _
  have hother : ∀ {c}, c ≠ l → Function.update parent l r c = parent c := fun hc =>
    Function.update_of_ne hc _ _
  have hroot : Climbs (Function.update parent l r) 0 r r := .root ((hother hlr.symm).trans hr)
  have hclimbs : ∀ {k c t}, Climbs parent k c t →
      (t = l → HasRoot (Function.update parent l r) c r) ∧
        (t ≠ l → HasRoot (Function.update parent l r) c t) := by
    intro k c t h
    induction h with
    | root h =>
      refine ⟨?_, fun hne => ⟨0, .root ((hother hne).trans h)⟩⟩
      rintro rfl
      refine ⟨1, .step ?_ ?_⟩
      · rw [hself]
        exact hlr.symm
      · rw [hself]
        exact hroot
    | @step _ c _ hne _ ih =>
      have hcl : c ≠ l := by
        rintro rfl
        exact hne hl
      constructor
      · intro ht
        obtain ⟨k, hk⟩ := ih.1 ht
        exact ⟨k + 1, .step (by rw [hother hcl]; exact hne) (by rw [hother hcl]; exact hk)⟩
      · intro ht
        obtain ⟨k, hk⟩ := ih.2 ht
        exact ⟨k + 1, .step (by rw [hother hcl]; exact hne) (by rw [hother hcl]; exact hk)⟩
  obtain ⟨t, k, ht⟩ := hforest b
  by_cases htl : t = l
  · subst htl
    have hlinked := (hclimbs ht).1 rfl
    constructor
    · intro h
      exact .inl ⟨⟨k, ht⟩, h.unique hlinked⟩
    · rintro (⟨-, rfl⟩ | ⟨⟨_, hs⟩, hne⟩)
      · exact hlinked
      · exact absurd (hs.unique ht).2 hne
  · have hkept := (hclimbs ht).2 htl
    constructor
    · intro h
      rw [h.unique hkept]
      exact .inr ⟨⟨k, ht⟩, htl⟩
    · rintro (⟨⟨_, hl'⟩, -⟩ | ⟨⟨_, hs⟩, -⟩)
      · exact absurd (ht.unique hl').2 htl
      · rw [(hs.unique ht).2]
        exact hkept

theorem isForest_link (hforest : IsForest parent) (hl : parent l = l) (hr : parent r = r)
    (hlr : l ≠ r) : IsForest (Function.update parent l r) := by
  intro b
  obtain ⟨s, hs⟩ := hforest b
  by_cases hsl : s = l
  · exact ⟨r, (hasRoot_link hforest hl hr hlr).mpr (.inl ⟨hsl ▸ hs, rfl⟩)⟩
  · exact ⟨s, (hasRoot_link hforest hl hr hlr).mpr (.inr ⟨hs, hsl⟩)⟩

variable {R : α → α → Prop}

/-- Putting the root of one node below that of another connects the two. -/
theorem Represents.link (h : Represents parent R) (ha : HasRoot parent a l)
    (hb : HasRoot parent b r) :
    Represents (Function.update parent l r) fun x y => R x y ∨ (x = a ∧ y = b) := by
  have hle : ∀ x y, R x y → R x y ∨ (x = a ∧ y = b) := fun _ _ => Or.inl
  have hmono : ∀ {x y}, Relation.EqvGen R x y →
      Relation.EqvGen (fun x y => R x y ∨ (x = a ∧ y = b)) x y :=
    fun hxy => Relation.EqvGen.mono hle _ _ hxy
  have hedge : Relation.EqvGen (fun x y => R x y ∨ (x = a ∧ y = b)) a b :=
    .rel a b (.inr ⟨rfl, rfl⟩)
  obtain ⟨_, hclimbs⟩ := ha
  obtain ⟨_, hclimbs'⟩ := hb
  have hl := hclimbs.isRoot
  have hr := hclimbs'.isRoot
  by_cases hlr : l = r
  · -- The two are in one tree.
    subst hlr
    have hsame : SameTree parent a b := ⟨l, ⟨_, hclimbs⟩, ⟨_, hclimbs'⟩⟩
    rw [Function.update_eq_self_iff.mpr hl.symm]
    refine ⟨h.forest, fun x y => ⟨fun hxy => hmono ((h.sameTree_iff x y).mp hxy), fun hxy => ?_⟩⟩
    have hequiv := equivalence_sameTree h.forest
    induction hxy with
    | rel x y hxy =>
      rcases hxy with hxy | ⟨rfl, rfl⟩
      · exact (h.sameTree_iff x y).mpr (.rel x y hxy)
      · exact hsame
    | refl x => exact hequiv.refl x
    | symm _ _ _ ih => exact hequiv.symm ih
    | trans _ _ _ _ _ ih ih' => exact hequiv.trans ih ih'
  · have hforest := isForest_link h.forest hl hr hlr
    have hequiv := equivalence_sameTree hforest
    have hroot := fun {c s} => @hasRoot_link α parent c l r s _ h.forest hl hr hlr
    refine ⟨hforest, fun x y => ⟨?_, fun hxy => ?_⟩⟩
    · have hto : ∀ {c s}, HasRoot (Function.update parent l r) c s → ∃ t, HasRoot parent c t ∧
          (s = t ∨ t = l ∧ s = r) := by
        intro c s hs
        rcases hroot.mp hs with ⟨ht, hsr⟩ | ⟨ht, -⟩
        · exact ⟨l, ht, .inr ⟨rfl, hsr⟩⟩
        · exact ⟨s, ht, .inl rfl⟩
      have hin : ∀ {c d t}, HasRoot parent c t → HasRoot parent d t → Relation.EqvGen R c d :=
        fun hc hd => (h.sameTree_iff _ _).mp ⟨_, hc, hd⟩
      rintro ⟨s, hx, hy⟩
      obtain ⟨t, hxt, hst⟩ := hto hx
      obtain ⟨u, hyu, hsu⟩ := hto hy
      rcases hst with rfl | ⟨rfl, rfl⟩
      · rcases hsu with rfl | ⟨rfl, rfl⟩
        · exact hmono (hin hxt hyu)
        · exact .trans _ _ _ (hmono (hin hxt ⟨_, hclimbs'⟩))
            (.trans _ _ _ (.symm _ _ hedge) (hmono (hin ⟨_, hclimbs⟩ hyu)))
      · rcases hsu with rfl | ⟨rfl, -⟩
        · exact .trans _ _ _ (hmono (hin hxt ⟨_, hclimbs⟩))
            (.trans _ _ _ hedge (hmono (hin ⟨_, hclimbs'⟩ hyu)))
        · exact hmono (hin hxt hyu)
    · have hkeep : ∀ {c d}, SameTree parent c d → SameTree (Function.update parent l r) c d := by
        rintro c d ⟨s, hc, hd⟩
        by_cases hsl : s = l
        · exact ⟨r, hroot.mpr (.inl ⟨hsl ▸ hc, rfl⟩), hroot.mpr (.inl ⟨hsl ▸ hd, rfl⟩)⟩
        · exact ⟨s, hroot.mpr (.inr ⟨hc, hsl⟩), hroot.mpr (.inr ⟨hd, hsl⟩)⟩
      induction hxy with
      | rel x y hxy =>
        rcases hxy with hxy | ⟨rfl, rfl⟩
        · exact hkeep ((h.sameTree_iff x y).mpr (.rel x y hxy))
        · exact ⟨r, hroot.mpr (.inl ⟨⟨_, hclimbs⟩, rfl⟩),
            hroot.mpr (.inr ⟨⟨_, hclimbs'⟩, Ne.symm hlr⟩)⟩
      | refl x => exact hequiv.refl x
      | symm _ _ _ ih => exact hequiv.symm ih
      | trans _ _ _ _ _ ih ih' => exact hequiv.trans ih ih'

end Updates

/-- Numbers are connected as the names that have them, when no two names have one number. -/
theorem eqvGen_numbered {β : Type*} {R : β → β → Prop} {number : β → Option α}
    (hinj : ∀ x y a, number x = some a → number y = some a → x = y)
    (hnumbered : ∀ x y, R x y → (∃ a, number x = some a) ∧ ∃ b, number y = some b) {x y : β}
    (hx : number x = some a) (hy : number y = some b) :
    Relation.EqvGen (fun a b => ∃ x y, R x y ∧ number x = some a ∧ number y = some b) a b ↔
      Relation.EqvGen R x y := by
  constructor
  · intro h
    have hnamed : ∀ {a b}, Relation.EqvGen
        (fun a b => ∃ x y, R x y ∧ number x = some a ∧ number y = some b) a b →
        a = b ∨ ∃ x y, number x = some a ∧ number y = some b ∧ Relation.EqvGen R x y := by
      intro a b h
      induction h with
      | rel a b h =>
        obtain ⟨x, y, hxy, hx, hy⟩ := h
        exact .inr ⟨x, y, hx, hy, .rel x y hxy⟩
      | refl a => exact .inl rfl
      | symm a b _ ih =>
        rcases ih with rfl | ⟨x, y, hx, hy, hxy⟩
        · exact .inl rfl
        · exact .inr ⟨y, x, hy, hx, .symm _ _ hxy⟩
      | trans a b c _ _ ih ih' =>
        rcases ih with rfl | ⟨x, y, hx, hy, hxy⟩
        · exact ih'
        · rcases ih' with rfl | ⟨y', z, hy', hz, hyz⟩
          · exact .inr ⟨x, y, hx, hy, hxy⟩
          · cases hinj _ _ _ hy hy'
            exact .inr ⟨x, z, hx, hz, .trans _ _ _ hxy hyz⟩
    rcases hnamed h with rfl | ⟨x', y', hx', hy', hxy⟩
    · rw [hinj _ _ _ hx hy]
      exact .refl y
    · rw [hinj _ _ _ hx hx', hinj _ _ _ hy hy']
      exact hxy
  · intro h
    have hnumbers : ∀ {x y}, Relation.EqvGen R x y → x = y ∨ ∃ a b, number x = some a ∧
        number y = some b ∧ Relation.EqvGen
          (fun a b => ∃ x y, R x y ∧ number x = some a ∧ number y = some b) a b := by
      intro x y h
      induction h with
      | rel x y h =>
        obtain ⟨⟨a, ha⟩, b, hb⟩ := hnumbered x y h
        exact .inr ⟨a, b, ha, hb, .rel a b ⟨x, y, h, ha, hb⟩⟩
      | refl x => exact .inl rfl
      | symm x y _ ih =>
        rcases ih with rfl | ⟨a, b, ha, hb, hab⟩
        · exact .inl rfl
        · exact .inr ⟨b, a, hb, ha, .symm _ _ hab⟩
      | trans x y z _ _ ih ih' =>
        rcases ih with rfl | ⟨a, b, ha, hb, hab⟩
        · exact ih'
        · rcases ih' with rfl | ⟨b', c, hb', hc, hbc⟩
          · exact .inr ⟨a, b, ha, hb, hab⟩
          · cases hb.symm.trans hb'
            exact .inr ⟨a, c, ha, hc, .trans _ _ _ hab hbc⟩
    rcases hnumbers h with rfl | ⟨a', b', ha', hb', hab⟩
    · cases hx.symm.trans hy
      exact .refl a
    · cases hx.symm.trans ha'
      cases hy.symm.trans hb'
      exact hab

end ParentForest
