import Mathlib.Data.List.Nodup
import Mathlib.Logic.Function.Basic
import ScopeVcs.Lib.ListUpdate
import ScopeVcs.Lib.SortedMap

/-! # Lists of entries with distinct keys

Such a list is determined by the order of its keys and by what it holds for each of them.
-/

namespace KeyedList

variable {κ α : Type*} [DecidableEq κ] {key : α → κ} {l l' : List α} {k : κ} {a b : α} {i : ℕ}

/-- The entry with the key `k`. -/
def lookup (key : α → κ) (l : List α) (k : κ) : Option α := l.find? fun a => key a = k

theorem lookup_eq_some (hkeys : (l.map key).Nodup) : lookup key l k = some a ↔ a ∈ l ∧ key a = k := by
  constructor
  · intro h
    exact ⟨List.mem_of_find?_eq_some h, by simpa using List.find?_some h⟩
  · rintro ⟨hmem, rfl⟩
    cases h : lookup key l (key a) with
    | none =>
      have hnone := List.find?_eq_none.mp h a hmem
      simp at hnone
    | some b =>
      have hb : key b = key a := by simpa using List.find?_some h
      rw [List.inj_on_of_nodup_map hkeys (List.mem_of_find?_eq_some h) hmem hb]

theorem lookup_isSome : (lookup key l k).isSome = true ↔ k ∈ l.map key := by
  simp [lookup, List.find?_isSome]

theorem lookup_perm (hkeys : (l.map key).Nodup) (h : l.Perm l') : lookup key l = lookup key l' := by
  have hkeys' : (l'.map key).Nodup := (h.map key).nodup_iff.mp hkeys
  funext k
  apply Option.ext
  intro a
  rw [lookup_eq_some hkeys, lookup_eq_some hkeys', h.mem_iff]

/-- A list of distinct keys is read back from its keys and its lookup. -/
theorem filterMap_lookup (hkeys : (l.map key).Nodup) : (l.map key).filterMap (lookup key l) = l := by
  rw [List.filterMap_map]
  have hself : ∀ a ∈ l, (lookup key l ∘ key) a = some a :=
    fun a ha => (lookup_eq_some hkeys).mpr ⟨ha, rfl⟩
  calc l.filterMap (lookup key l ∘ key) = l.filterMap some :=
        List.filterMap_congr hself
    _ = l := List.filterMap_some

theorem eq_of_lookup (hkeys : (l.map key).Nodup) (hmap : l'.map key = l.map key)
    (hlookup : lookup key l' = lookup key l) : l' = l := by
  calc l' = (l'.map key).filterMap (lookup key l') := (filterMap_lookup (hmap ▸ hkeys)).symm
    _ = (l.map key).filterMap (lookup key l) := by rw [hmap, hlookup]
    _ = l := filterMap_lookup hkeys

theorem perm_of_lookup (hkeys : (l.map key).Nodup) (hmap : (l'.map key).Perm (l.map key))
    (hlookup : lookup key l' = lookup key l) : l'.Perm l := by
  have hperm : ((l'.map key).filterMap (lookup key l')).Perm
      ((l.map key).filterMap (lookup key l)) := hlookup ▸ hmap.filterMap _
  rwa [filterMap_lookup hkeys, filterMap_lookup (hmap.nodup_iff.mpr hkeys)] at hperm

/-- Replacing an entry by one with the same key updates the lookup there. -/
theorem lookup_set (hkeys : (l.map key).Nodup) (ha : l[i]? = some a) (hb : key b = key a) :
    lookup key (l.set i b) = Function.update (lookup key l) (key a) (some b) := by
  have hkeys' : ((l.set i b).map key).Nodup := by rwa [ListUpdate.map_set ha hb]
  funext k
  by_cases hk : k = key a
  · subst hk
    rw [Function.update_self, lookup_eq_some hkeys']
    exact ⟨ListUpdate.mem_set_self ha, hb⟩
  · rw [Function.update_of_ne hk]
    apply Option.ext
    intro c
    rw [lookup_eq_some hkeys', lookup_eq_some hkeys]
    refine and_congr_left ?_
    rintro rfl
    constructor
    · intro hc
      rcases ListUpdate.mem_set_cases hc with rfl | ⟨j, -, hj⟩
      · exact absurd hb hk
      · exact List.mem_of_getElem? hj
    · intro hc
      obtain ⟨j, hj⟩ := List.mem_iff_getElem?.mp hc
      refine ListUpdate.mem_set_of_getElem? hj ?_
      rintro rfl
      exact hk (congrArg key (Option.some_inj.mp (hj.symm.trans ha)))

/-! ## Positions -/

/-- The position of each key. -/
def positions [LinearOrder κ] (key : α → κ) (l : List α) : SortedMap κ ℕ :=
  SortedMap.ofList (l.zipIdx.map fun (a, index) => (key a, index))

theorem positions_get? {κ : Type*} [LinearOrder κ] {key : α → κ} (hkeys : (l.map key).Nodup)
    {k : κ} : (positions key l).get? k = some i ↔ ∃ a, l[i]? = some a ∧ key a = k := by
  have hmap : ((l.zipIdx.map fun e => (key e.1, e.2)).map Prod.fst) = l.map key := by
    rw [List.map_map]
    conv_rhs => rw [← List.zipIdx_map_fst 0 l, List.map_map]
    rfl
  rw [positions, SortedMap.get?_ofList (hmap ▸ hkeys)]
  simp only [List.mem_map, Prod.mk.injEq, Prod.exists, List.mem_zipIdx_iff_getElem?]
  constructor
  · rintro ⟨a, j, ha, hk, rfl⟩
    exact ⟨a, ha, hk⟩
  · rintro ⟨a, ha, hk⟩
    exact ⟨a, i, ha, hk, rfl⟩

theorem positions_congr {κ : Type*} [LinearOrder κ] {key : α → κ}
    (hmap : l'.map key = l.map key) : positions key l' = positions key l := by
  have hkeys : ∀ l : List α, l.zipIdx.map (fun e => (key e.1, e.2)) = (l.map key).zipIdx := by
    intro l
    rw [List.zipIdx_map]
    rfl
  show SortedMap.ofList (l'.zipIdx.map fun e => (key e.1, e.2)) =
    SortedMap.ofList (l.zipIdx.map fun e => (key e.1, e.2))
  rw [hkeys, hkeys, hmap]

theorem length_entries_positions {κ : Type*} [LinearOrder κ] {key : α → κ}
    (hkeys : (l.map key).Nodup) : (positions key l).entries.length = l.length := by
  have hperm : (positions key l).keys.Perm (l.map key) := by
    refine (List.perm_ext_iff_of_nodup (SortedMap.keys_nodup _) hkeys).mpr fun k => ?_
    simp only [SortedMap.mem_keys, positions_get? hkeys, List.mem_map]
    constructor
    · rintro ⟨i, a, ha, rfl⟩
      exact ⟨a, List.mem_of_getElem? ha, rfl⟩
    · rintro ⟨a, ha, rfl⟩
      obtain ⟨i, hi⟩ := List.mem_iff_getElem?.mp ha
      exact ⟨i, a, hi, rfl⟩
  simpa [SortedMap.keys] using hperm.length_eq

end KeyedList
