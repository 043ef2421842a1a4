import ScopeVcs.Storage.PackCacheChanges

/-! # What the cache holds

The usage that the cache reports is measured on the files below its root. The entries of a listing gather
these files, and the loop that evicts them keeps the usage it started with up to date.
-/

namespace ScopeVcs.Storage.PackCache

open Mutation VerifiedPackCache

variable {cache cache' : VerifiedPackCache} {env : Environment} {path other : PackPath}
  {file : CacheFile} {size : ℕ} {modified : SystemTime} {weight weight' : PackPath → ℕ}

/-! ## Measures -/

/-- What a file amounts to, by its pack, its size and whether it is the pack itself. -/
def amount (f : PackPath → ℕ → Bool → ℕ) (file : CacheFile) : ℕ :=
  match file.counted? with
  | some (path, size, _) => f path size (file.path.extension = some "pack")
  | none => 0

/-- The size of a file, by the weight of its pack. -/
def sizeIn (weight : PackPath → ℕ) : CacheFile → ℕ := amount fun path size _ => weight path * size

/-- The weight of a pack, at the pack itself. -/
def packIn (weight : PackPath → ℕ) : CacheFile → ℕ :=
  amount fun path _ isPack => if isPack then weight path else 0

/-- The weight that tells one path from all others. -/
def only (path : PackPath) : PackPath → ℕ := fun other => if other = path then 1 else 0

def leased (cache : VerifiedPackCache) : PackPath → ℕ := fun path =>
  if cache.isLeased path then 1 else 0

/-- The usage of the files below the root. -/
def measured (cache : VerifiedPackCache) : VerifiedPackCacheUsage where
  retainedBytes := cache.directory.total (sizeIn fun _ => 1)
  leasedBytes := cache.directory.total (sizeIn (leased cache))
  packCount := cache.directory.total (packIn fun _ => 1)

theorem packPath?_of_counted? (h : file.counted? = some (path, size, modified)) :
    file.path.packPath? = some path := by
  unfold CacheFile.counted? at h
  split at h
  · split_ifs at h
    obtain ⟨found, hfound, heq⟩ := Option.map_eq_some_iff.mp h
    cases heq
    exact hfound
  · cases h

/-- A counted file is the pack or its index. -/
theorem path_of_counted? (h : file.counted? = some (path, size, modified)) :
    file.path = path.artifact ∧ file.path.extension = some "pack" ∨
      file.path = path.index ∧ file.path.extension ≠ some "pack" := by
  have hpath := packPath?_of_counted? h
  obtain ⟨⟨repository, stem, extension⟩, node⟩ := file
  unfold ArtifactPath.packPath? at hpath
  split_ifs at hpath with hextension
  cases hpath
  rcases hextension with hpack | hindex
  · dsimp only at hpack
    subst hpack
    exact .inl ⟨rfl, rfl⟩
  · dsimp only at hindex
    subst hindex
    exact .inr ⟨rfl, fun h => absurd (Option.some.inj h) (by decide)⟩

theorem counted_path_eq_iff (h : file.counted? = some (path, size, modified)) :
    path = other ↔ file.path = other.artifact ∨ file.path = other.index := by
  constructor
  · rintro rfl
    exact (path_of_counted? h).imp And.left And.left
  · have hpath := packPath?_of_counted? h
    rintro (heq | heq)
    · rw [heq] at hpath
      exact (Option.some.inj hpath).symm
    · rw [heq] at hpath
      exact (Option.some.inj hpath).symm

theorem amount_of_counted? {f : PackPath → ℕ → Bool → ℕ}
    (h : file.counted? = some (path, size, modified)) :
    amount f file = f path size (file.path.extension = some "pack") := by
  rw [amount, h]

theorem amount_of_none {f : PackPath → ℕ → Bool → ℕ} (h : file.counted? = none) :
    amount f file = 0 := by
  rw [amount, h]

/-- The files of one path make up what it amounts to. -/
theorem total_amount_split (f : PackPath → ℕ → Bool → ℕ) (path : PackPath) :
    cache.directory.total (amount f) =
      cache.directory.total (amount fun q size isPack => if q = path then 0 else f q size isPack) +
        cache.directory.total (amount fun q size isPack => if q = path then f q size isPack else 0) := by
  rw [Table.total, Table.total, Table.total, ← List.sum_map_add]
  refine congrArg List.sum (List.map_congr_left fun file _ => ?_)
  cases hcounted : file.counted? with
  | none => rw [amount_of_none hcounted, amount_of_none hcounted, amount_of_none hcounted]
  | some counted =>
    obtain ⟨q, size, modified⟩ := counted
    rw [amount_of_counted? hcounted, amount_of_counted? hcounted, amount_of_counted? hcounted]
    split_ifs
    · exact (Nat.zero_add _).symm
    · exact (Nat.add_zero _).symm

/-! ## Listings -/

/-- The entries gather the files that were listed. -/
structure Gathers (files : List CacheFile) (grouped : SortedMap PackPath CacheEntry) : Prop where
  packPath : ∀ path entry, grouped.get? path = some entry → entry.packPath = path
  size : ∀ weight : PackPath → ℕ,
    (grouped.entries.map fun e => weight e.2.packPath * e.2.sizeBytes).sum =
      (files.map (sizeIn weight)).sum
  pack : ∀ weight : PackPath → ℕ,
    (grouped.entries.map fun e => if e.2.hasPack then weight e.2.packPath else 0).sum =
      (files.map (packIn weight)).sum
  hasPack : ∀ path entry, grouped.get? path = some entry → entry.hasPack = true →
    path.artifact ∈ files.map CacheFile.path
  found : ∀ file ∈ files, ∀ path size modified, file.counted? = some (path, size, modified) →
    ∃ entry, grouped.get? path = some entry

theorem gathers_nil : Gathers [] ∅ := by
  refine ⟨?_, fun _ => rfl, fun _ => rfl, ?_, ?_⟩
  · intro path entry h
    cases h
  · intro path entry h
    cases h
  · intro file h
    cases h

theorem checkedSize_eq_ok {a b c : ℕ} : checkedSize a b = .ok c ↔ a + b = c ∧ c ≤ U64.maxU64 := by
  rw [← U64.checkedAdd_eq_some, checkedSize]
  cases U64.checkedAdd a b with
  | none => exact iff_of_false (fun h => by cases h) (fun h => by cases h)
  | some size => rw [Except.ok.injEq, Option.some.injEq]

variable {files : List CacheFile} {grouped grouped' : SortedMap PackPath CacheEntry}

/-- A file that is not counted changes no entry. -/
theorem Gathers.skip (hg : Gathers files grouped) (hcounted : file.counted? = none) :
    Gathers (files ++ [file]) grouped := by
  refine ⟨hg.packPath, fun weight => ?_, fun weight => ?_, ?_, ?_⟩
  · rw [hg.size, List.map_append, List.sum_append, List.map_singleton, List.sum_singleton, sizeIn,
      amount_of_none hcounted, Nat.add_zero]
  · rw [hg.pack, List.map_append, List.sum_append, List.map_singleton, List.sum_singleton, packIn,
      amount_of_none hcounted, Nat.add_zero]
  · intro path entry hentry hpack
    rw [List.map_append]
    exact List.mem_append_left _ (hg.hasPack path entry hentry hpack)
  · intro other hmem path size modified hother
    rcases List.mem_append.mp hmem with hmem | hmem
    · exact hg.found other hmem path size modified hother
    · rw [List.mem_singleton.mp hmem, hcounted] at hother
      cases hother

/-- A file that is counted is added to the entry of its pack. -/
theorem Gathers.insert (hg : Gathers files grouped) (hnew : file.path ∉ files.map CacheFile.path)
    (hcounted : file.counted? = some (path, size, modified)) {entry : CacheEntry}
    (hpath : entry.packPath = path)
    (hsize : entry.sizeBytes = ((grouped.get? path).map CacheEntry.sizeBytes).getD 0 + size)
    (hpack : entry.hasPack = (((grouped.get? path).map CacheEntry.hasPack).getD false ||
      decide (file.path.extension = some "pack"))) :
    Gathers (files ++ [file]) (grouped.insert path entry) := by
  -- The pack of a path is listed once.
  have hfresh : file.path.extension = some "pack" →
      ((grouped.get? path).map CacheEntry.hasPack).getD false = false := by
    intro hextension
    cases hget : grouped.get? path with
    | none => rfl
    | some old =>
      refine Bool.eq_false_iff.mpr fun hold => ?_
      rcases path_of_counted? hcounted with ⟨heq, -⟩ | ⟨-, hne⟩
      · exact hnew (heq ▸ hg.hasPack path old hget hold)
      · exact hne hextension
  refine ⟨fun other old hold => ?_, fun weight => ?_, fun weight => ?_, ?_, ?_⟩
  · rw [SortedMap.get?_insert] at hold
    split_ifs at hold with heq
    · cases hold
      rw [heq, hpath]
    · exact hg.packPath other old hold
  · have hinsert := SortedMap.sum_insert grouped path entry fun e => weight e.2.packPath * e.2.sizeBytes
    have hbefore : ((grouped.get? path).map fun old => weight old.packPath * old.sizeBytes).getD 0 =
        weight path * ((grouped.get? path).map CacheEntry.sizeBytes).getD 0 := by
      cases hget : grouped.get? path with
      | none => rfl
      | some old =>
        rw [Option.map_some, Option.getD_some, hg.packPath path old hget]
        rfl
    dsimp only at hinsert
    rw [hbefore, hg.size, hpath, hsize, Nat.mul_add] at hinsert
    rw [List.map_append, List.sum_append, List.map_singleton, List.sum_singleton, sizeIn,
      amount_of_counted? hcounted]
    unfold sizeIn at hinsert
    omega
  · have hinsert := SortedMap.sum_insert grouped path entry
      fun e => if e.2.hasPack then weight e.2.packPath else 0
    have hbefore : ((grouped.get? path).map fun old =>
        if old.hasPack then weight old.packPath else 0).getD 0 =
        if ((grouped.get? path).map CacheEntry.hasPack).getD false then weight path else 0 := by
      cases hget : grouped.get? path with
      | none => rfl
      | some old =>
        rw [Option.map_some, Option.getD_some, hg.packPath path old hget]
        rfl
    dsimp only at hinsert
    rw [hbefore, hg.pack, hpath, hpack] at hinsert
    rw [List.map_append, List.sum_append, List.map_singleton, List.sum_singleton, packIn,
      amount_of_counted? hcounted]
    unfold packIn at hinsert
    by_cases hextension : file.path.extension = some "pack"
    · rw [hfresh hextension, if_neg Bool.false_ne_true, Bool.false_or,
        if_pos (decide_eq_true hextension)] at hinsert
      rw [if_pos (decide_eq_true hextension)]
      exact hinsert
    · rw [decide_eq_false hextension, Bool.or_false] at hinsert
      rw [decide_eq_false hextension, if_neg Bool.false_ne_true, Nat.add_zero]
      exact Nat.add_right_cancel hinsert
  · intro other old hold holdPack
    rw [List.map_append, List.map_singleton, List.mem_append, List.mem_singleton]
    rw [SortedMap.get?_insert] at hold
    split_ifs at hold with heq
    · cases hold
      rw [hpack, Bool.or_eq_true, decide_eq_true_eq] at holdPack
      rcases holdPack with hbefore | hextension
      · cases hget : grouped.get? path with
        | none =>
          rw [hget] at hbefore
          cases hbefore
        | some old =>
          rw [hget] at hbefore
          rw [heq]
          exact .inl (hg.hasPack path old hget hbefore)
      · rcases path_of_counted? hcounted with ⟨hartifact, -⟩ | ⟨-, hne⟩
        · rw [heq]
          exact .inr hartifact.symm
        · exact absurd hextension hne
    · exact .inl (hg.hasPack other old hold holdPack)
  · intro other hmem path' size' modified' hother
    rw [SortedMap.get?_insert]
    rcases List.mem_append.mp hmem with hmem | hmem
    · split_ifs
      · exact ⟨_, rfl⟩
      · exact hg.found other hmem path' size' modified' hother
    · rw [List.mem_singleton.mp hmem, hcounted] at hother
      cases hother
      rw [if_pos rfl]
      exact ⟨_, rfl⟩

theorem Gathers.addArtifact (hg : Gathers files grouped)
    (hnew : file.path ∉ files.map CacheFile.path)
    (h : addArtifact env cache grouped file = .ok grouped') : Gathers (files ++ [file]) grouped' := by
  unfold PackCache.addArtifact at h
  split at h
  · next hcounted =>
    cases h
    exact hg.skip hcounted
  · next path size modified hcounted =>
    obtain ⟨sizeBytes, hsize, rfl⟩ := except_map_eq_ok.mp h
    obtain ⟨hsum, -⟩ := checkedSize_eq_ok.mp hsize
    refine hg.insert hnew hcounted ?_ ?_ ?_
    · cases hget : grouped.get? path with
      | none => rfl
      | some entry => exact hg.packPath path entry hget
    · rw [← hsum]
      cases grouped.get? path <;> rfl
    · cases grouped.get? path <;> rfl

theorem Gathers.foldlM {rest : List CacheFile} (hg : Gathers files grouped)
    (hnodup : ((files ++ rest).map CacheFile.path).Nodup)
    (h : rest.foldlM (PackCache.addArtifact env cache) grouped = .ok grouped') :
    Gathers (files ++ rest) grouped' := by
  induction rest generalizing files grouped with
  | nil =>
    cases h
    rw [List.append_nil]
    exact hg
  | cons file rest ih =>
    rw [List.foldlM_cons, except_bind_eq_ok] at h
    obtain ⟨middle, hfile, hrest⟩ := h
    rw [List.append_cons] at hnodup ⊢
    refine ih (hg.addArtifact ?_ hfile) hnodup hrest
    rw [List.map_append, List.map_append, List.append_assoc] at hnodup
    exact fun hmem => (List.nodup_append.mp hnodup).2.2 _ hmem _ (by simp) rfl

/-- The entries of a listing, on the files of the directory. -/
structure Lists (cache : VerifiedPackCache) (entries : List CacheEntry) : Prop where
  nodup : (entries.map CacheEntry.packPath).Nodup
  size : ∀ weight : PackPath → ℕ, (entries.map fun e => weight e.packPath * e.sizeBytes).sum =
    cache.directory.total (sizeIn weight)
  pack : ∀ weight : PackPath → ℕ,
    (entries.map fun e => if e.hasPack then weight e.packPath else 0).sum =
      cache.directory.total (packIn weight)
  found : ∀ file ∈ cache.directory, ∀ path size modified,
    file.counted? = some (path, size, modified) → path ∈ entries.map CacheEntry.packPath

theorem cacheEntries_lists {entries : List CacheEntry} (h : cacheEntries env cache = .ok entries) :
    Lists cache entries := by
  obtain ⟨-, h⟩ := except_unit_bind_eq_ok.mp h
  obtain ⟨grouped, hgrouped, h⟩ := except_bind_eq_ok.mp h
  cases h
  have hg : Gathers cache.directory.rows grouped := gathers_nil.foldlM cache.directory.nodup hgrouped
  have hpaths : (grouped.entries.map Prod.snd).map CacheEntry.packPath = grouped.keys := by
    rw [List.map_map, SortedMap.keys]
    refine List.map_congr_left fun e he => ?_
    exact hg.packPath e.1 e.2 (SortedMap.mem_entries_iff.mp he)
  refine ⟨?_, fun weight => ?_, fun weight => ?_, ?_⟩
  · rw [hpaths]
    exact grouped.keys_nodup
  · rw [List.map_map]
    exact hg.size weight
  · rw [List.map_map]
    exact hg.pack weight
  · intro file hmem path size modified hcounted
    rw [hpaths, SortedMap.mem_keys]
    exact hg.found file hmem path size modified hcounted

theorem addUsage_eq_ok {usage usage' : VerifiedPackCacheUsage} {entry : CacheEntry}
    (h : addUsage cache usage entry = .ok usage') :
    usage' = ⟨usage.retainedBytes + entry.sizeBytes,
      usage.leasedBytes + leased cache entry.packPath * entry.sizeBytes,
      usage.packCount + if entry.hasPack then 1 else 0⟩ := by
  obtain ⟨retainedBytes, hretained, h⟩ := except_bind_eq_ok.mp h
  obtain ⟨packCount, hpacks, h⟩ := except_bind_eq_ok.mp h
  obtain ⟨leasedBytes, hleased, h⟩ := except_bind_eq_ok.mp h
  cases h
  have hpackCount : packCount = usage.packCount + if entry.hasPack then 1 else 0 := by
    split_ifs at hpacks ⊢
    · exact (checkedSize_eq_ok.mp hpacks).1.symm
    · exact (Except.ok.inj hpacks).symm
  have hleasedBytes : leasedBytes =
      usage.leasedBytes + leased cache entry.packPath * entry.sizeBytes := by
    unfold leased
    split_ifs at hleased ⊢
    · rw [Nat.one_mul]
      exact (checkedSize_eq_ok.mp hleased).1.symm
    · rw [Nat.zero_mul]
      exact (Except.ok.inj hleased).symm
  rw [← (checkedSize_eq_ok.mp hretained).1, hpackCount, hleasedBytes]

theorem foldlM_addUsage {entries : List CacheEntry} {start usage : VerifiedPackCacheUsage}
    (h : entries.foldlM (addUsage cache) start = .ok usage) :
    usage = ⟨start.retainedBytes + (entries.map fun e => 1 * e.sizeBytes).sum,
      start.leasedBytes + (entries.map fun e => leased cache e.packPath * e.sizeBytes).sum,
      start.packCount + (entries.map fun e => if e.hasPack then 1 else 0).sum⟩ := by
  induction entries generalizing start with
  | nil =>
    cases h
    rfl
  | cons entry entries ih =>
    rw [List.foldlM_cons, except_bind_eq_ok] at h
    obtain ⟨middle, hentry, hrest⟩ := h
    rw [ih hrest, addUsage_eq_ok hentry]
    simp only [List.map_cons, List.sum_cons, Nat.one_mul, Nat.add_assoc]

/-- The usage that is reported is measured on the files. -/
theorem usageForEntries_eq_measured {entries : List CacheEntry} {usage : VerifiedPackCacheUsage}
    (hlists : Lists cache entries) (h : usageForEntries entries cache = .ok usage) :
    usage = measured cache := by
  rw [foldlM_addUsage h, measured, ← hlists.size fun _ => 1, ← hlists.size (leased cache),
    ← hlists.pack fun _ => 1, Nat.zero_add, Nat.zero_add, Nat.zero_add]

theorem usage_ok {usage : VerifiedPackCacheUsage}
    (h : (PackCache.usage env).run cache = .ok usage cache') : usage = measured cache' := by
  obtain ⟨hcheck, rfl⟩ := check_eq_ok.mp h
  obtain ⟨entries, hentries, husage⟩ := except_bind_eq_ok.mp hcheck
  exact usageForEntries_eq_measured (cacheEntries_lists hentries) husage

/-! ## Evictions -/

/-- The cache without the pack of a path. -/
def evicted (cache : VerifiedPackCache) (path : PackPath) : VerifiedPackCache :=
  ((cache.removePath path.artifact).removePath path.index).removeEntry path

theorem mem_evicted : file ∈ (evicted cache path).directory ↔
    file ∈ cache.directory ∧ file.path ≠ path.artifact ∧ file.path ≠ path.index := by
  change file ∈ (cache.directory.delete _).delete _ ↔ _
  rw [Table.mem_delete, Table.mem_delete, decide_eq_false_iff_not, decide_eq_false_iff_not, and_assoc]

/-- An eviction takes away what the files of the path amount to. -/
theorem total_evicted (f : PackPath → ℕ → Bool → ℕ) :
    (evicted cache path).directory.total (amount f) =
      cache.directory.total
        (amount fun q size isPack => if q = path then 0 else f q size isPack) := by
  change ((cache.directory.delete _).delete _).total _ = _
  rw [Table.total_delete, Table.total_delete]
  refine Table.total_congr fun file _ => ?_
  cases hcounted : file.counted? with
  | none =>
    rw [amount_of_none hcounted, amount_of_none hcounted, ite_self, ite_self]
  | some counted =>
    obtain ⟨q, size, modified⟩ := counted
    rw [amount_of_counted? hcounted, amount_of_counted? hcounted]
    have hiff := @counted_path_eq_iff q path file size modified hcounted
    by_cases hpath : q = path
    · rw [if_pos hpath]
      rcases hiff.mp hpath with hartifact | hindex
      · rw [if_pos (decide_eq_true hartifact)]
      · rw [if_pos (decide_eq_true hindex), ite_self]
    · have hnot := not_or.mp (mt hiff.mpr hpath)
      rw [if_neg hpath, if_neg (by rw [decide_eq_true_eq]; exact hnot.1),
        if_neg (by rw [decide_eq_true_eq]; exact hnot.2)]

theorem isLeased_evicted (h : cache.isLeased path = false) (other : PackPath) :
    (evicted cache path).isLeased other = cache.isLeased other := by
  have hleases : (evicted cache path).leases other = cache.leases other := by
    rw [evicted, leases_removeEntry]
    split_ifs with heq
    · rw [heq, isLeased_eq_false.mp h]
    · rfl
  rw [isLeased, isLeased, hleases]

/-- The entries that an eviction has still to look at. -/
structure Remaining (cache : VerifiedPackCache) (entries : List CacheEntry) : Prop where
  nodup : (entries.map CacheEntry.packPath).Nodup
  size : ∀ e ∈ entries, e.sizeBytes = cache.directory.total
    (amount fun q size _ => if q = e.packPath then 1 * size else 0)
  pack : ∀ e ∈ entries, (if e.hasPack then 1 else 0) = cache.directory.total
    (amount fun q _ isPack => if q = e.packPath then if isPack then 1 else 0 else 0)
  rest : ∀ file ∈ cache.directory, ∀ path size modified,
    file.counted? = some (path, size, modified) →
      cache.isLeased path = true ∨ path ∈ entries.map CacheEntry.packPath

/-- Among entries of different paths, one gives the whole sum of what is zero for all others. -/
theorem sum_eq_of_nodup {entries : List CacheEntry} {entry : CacheEntry}
    (hnodup : (entries.map CacheEntry.packPath).Nodup) (hmem : entry ∈ entries)
    {f : CacheEntry → ℕ} (h : ∀ other, other.packPath ≠ entry.packPath → f other = 0) :
    (entries.map f).sum = f entry := by
  have hzero : ∀ other, other ≠ entry → other ∈ entries → f other = 0 := fun other hne hother =>
    h other fun heq => hne (List.inj_on_of_nodup_map hnodup hother hmem heq)
  rw [List.sum_map_eq_nsmul_single entry f hzero,
    List.count_eq_one_of_mem (List.Nodup.of_map _ hnodup) hmem, one_nsmul]

theorem Lists.remaining {entries : List CacheEntry} (h : Lists cache entries) :
    Remaining cache entries := by
  refine ⟨h.nodup, fun entry hmem => ?_, fun entry hmem => ?_,
    fun file hfile path size modified hcounted => .inr (h.found file hfile path size modified hcounted)⟩
  · have hsum := sum_eq_of_nodup (f := fun e => only entry.packPath e.packPath * e.sizeBytes)
      h.nodup hmem fun other hne => by rw [only, if_neg hne, Nat.zero_mul]
    rw [h.size, only, if_pos rfl, Nat.one_mul] at hsum
    rw [← hsum, sizeIn]
    congr 2
    funext q size isPack
    rw [only]
    split_ifs
    · rfl
    · exact Nat.zero_mul size
  · have hsum := sum_eq_of_nodup
      (f := fun e => if e.hasPack then only entry.packPath e.packPath else 0)
      h.nodup hmem fun other hne => by rw [only, if_neg hne, ite_self]
    rw [h.pack, only, if_pos rfl] at hsum
    rw [← hsum, packIn]
    congr 2
    funext q size isPack
    rw [only]
    split_ifs <;> rfl

theorem Lists.perm {entries entries' : List CacheEntry} (h : Lists cache entries)
    (hperm : entries'.Perm entries) : Lists cache entries' := by
  refine ⟨(hperm.map _).nodup_iff.mpr h.nodup, fun weight => ?_, fun weight => ?_,
    fun file hfile path size modified hcounted => ?_⟩
  · rw [(hperm.map _).sum_eq]
    exact h.size weight
  · rw [(hperm.map _).sum_eq]
    exact h.pack weight
  · rw [(hperm.map _).mem_iff]
    exact h.found file hfile path size modified hcounted

variable {entry : CacheEntry} {entries : List CacheEntry}

theorem Remaining.skip (h : Remaining cache (entry :: entries))
    (hleased : cache.isLeased entry.packPath = true) : Remaining cache entries := by
  refine ⟨(List.nodup_cons.mp h.nodup).2, fun e hmem => h.size e (List.mem_cons_of_mem _ hmem),
    fun e hmem => h.pack e (List.mem_cons_of_mem _ hmem),
    fun file hfile path size modified hcounted => ?_⟩
  rcases h.rest file hfile path size modified hcounted with hpath | hmem
  · exact .inl hpath
  · rcases List.mem_cons.mp hmem with rfl | hmem
    · exact .inl hleased
    · exact .inr hmem

/-- What an eviction takes away is not part of what another path amounts to. -/
theorem total_evicted_of_ne (hne : other ≠ path) (f : PackPath → ℕ → Bool → ℕ) :
    (evicted cache path).directory.total
        (amount fun q size isPack => if q = other then f q size isPack else 0) =
      cache.directory.total
        (amount fun q size isPack => if q = other then f q size isPack else 0) := by
  rw [total_evicted]
  congr 2
  funext q size isPack
  split_ifs with hpath hother
  · exact absurd (hother.symm.trans hpath) hne
  · rfl
  · rfl
  · rfl

theorem Remaining.evict (h : Remaining cache (entry :: entries))
    (hfree : cache.isLeased entry.packPath = false) :
    Remaining (evicted cache entry.packPath) entries := by
  have hne : ∀ e ∈ entries, e.packPath ≠ entry.packPath := fun e hmem heq =>
    (List.nodup_cons.mp h.nodup).1 (heq ▸ List.mem_map_of_mem hmem)
  refine ⟨(List.nodup_cons.mp h.nodup).2, fun e hmem => ?_, fun e hmem => ?_,
    fun file hfile path size modified hcounted => ?_⟩
  · rw [total_evicted_of_ne (hne e hmem)]
    exact h.size e (List.mem_cons_of_mem _ hmem)
  · rw [total_evicted_of_ne (hne e hmem) fun _ _ isPack => if isPack then 1 else 0]
    exact h.pack e (List.mem_cons_of_mem _ hmem)
  · rw [isLeased_evicted hfree]
    obtain ⟨hfile, hartifact, hindex⟩ := mem_evicted.mp hfile
    rcases h.rest file hfile path size modified hcounted with hpath | hmem
    · exact .inl hpath
    · rcases List.mem_cons.mp hmem with rfl | hmem
      · exact absurd ((counted_path_eq_iff hcounted).mp rfl) (not_or.mpr ⟨hartifact, hindex⟩)
      · exact .inr hmem

/-- No subtraction of an eviction goes below zero. -/
theorem measured_evicted (h : Remaining cache (entry :: entries))
    (hfree : cache.isLeased entry.packPath = false) :
    measured cache = ⟨(measured (evicted cache entry.packPath)).retainedBytes + entry.sizeBytes,
      (measured (evicted cache entry.packPath)).leasedBytes,
      (measured (evicted cache entry.packPath)).packCount + if entry.hasPack then 1 else 0⟩ := by
  have hretained : (measured cache).retainedBytes =
      (measured (evicted cache entry.packPath)).retainedBytes + entry.sizeBytes := by
    rw [h.size entry List.mem_cons_self]
    unfold measured sizeIn
    dsimp only
    rw [total_evicted]
    exact total_amount_split _ entry.packPath
  have hpacks : (measured cache).packCount =
      (measured (evicted cache entry.packPath)).packCount + if entry.hasPack then 1 else 0 := by
    rw [h.pack entry List.mem_cons_self]
    unfold measured packIn
    dsimp only
    rw [total_evicted]
    exact total_amount_split _ entry.packPath
  have hleased : (measured cache).leasedBytes =
      (measured (evicted cache entry.packPath)).leasedBytes := by
    unfold measured sizeIn
    dsimp only
    rw [total_evicted]
    congr 2
    funext q size isPack
    unfold leased
    rw [isLeased_evicted hfree]
    split_ifs with hleased hpath
    · rw [hpath, hfree] at hleased
      cases hleased
    · rfl
    · exact Nat.zero_mul size
    · rfl
  rw [← hretained, ← hpacks, ← hleased]

/-- An eviction that ends well has come down to its target, or to what is leased. -/
theorem evict_ok {targetBytes : ℕ} {usage usage' : VerifiedPackCacheUsage}
    (hremaining : Remaining cache entries) (husage : usage = measured cache)
    (h : (evict env targetBytes entries usage).run cache = .ok usage' cache') :
    usage' = measured cache' ∧ (usage'.retainedBytes ≤ targetBytes ∨
      ∀ file ∈ cache'.directory, ∀ path size modified,
        file.counted? = some (path, size, modified) → cache'.isLeased path = true) := by
  induction entries generalizing cache usage with
  | nil =>
    obtain ⟨rfl, rfl⟩ := pure_eq_ok.mp h
    refine ⟨husage, .inr fun file hfile path size modified hcounted => ?_⟩
    rcases hremaining.rest file hfile path size modified hcounted with hleased | hmem
    · exact hleased
    · cases hmem
  | cons entry entries ih =>
    rw [evict] at h
    split at h
    · next hle =>
      obtain ⟨rfl, rfl⟩ := pure_eq_ok.mp h
      exact ⟨husage, .inl hle⟩
    · obtain ⟨leased, hleased, h⟩ := check_bind_eq_ok.mp h
      cases leased with
      | true => exact ih (hremaining.skip (Except.ok.inj hleased)) husage h
      | false =>
        have hfree : cache.isLeased entry.packPath = false := Except.ok.inj hleased
        rw [if_neg Bool.false_ne_true] at h
        obtain ⟨_, middle, hremoved, h⟩ := bind_eq_ok.mp h
        rw [modify_bind_eq_ok, removeCacheArtifacts_ok hremoved] at h
        refine ih (hremaining.evict hfree) ?_ h
        rw [husage, measured_evicted hremaining hfree]
        split_ifs
        · rw [Nat.add_sub_cancel, Nat.add_sub_cancel]
        · rw [Nat.add_sub_cancel, Nat.add_zero]

theorem evictTo_ok {targetBytes : ℕ} {usage : VerifiedPackCacheUsage}
    (h : (evictTo env targetBytes).run cache = .ok usage cache') :
    usage = measured cache' ∧ (usage.retainedBytes ≤ targetBytes ∨
      ∀ file ∈ cache'.directory, ∀ path size modified,
        file.counted? = some (path, size, modified) → cache'.isLeased path = true) := by
  obtain ⟨entries, hentries, h⟩ := check_bind_eq_ok.mp h
  obtain ⟨start, hstart, h⟩ := check_bind_eq_ok.mp h
  have hlists := (cacheEntries_lists hentries).perm
    (List.perm_insertionSort (fun a b : CacheEntry => a.lastUsed ≤ b.lastUsed) entries)
  exact evict_ok hlists.remaining (usageForEntries_eq_measured hlists hstart) h

end ScopeVcs.Storage.PackCache
