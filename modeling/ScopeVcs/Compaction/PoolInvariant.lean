import ScopeVcs.Compaction.Chain

/-! # What the transactions keep of the pool

Each repository's main packs stay the chain of its pushes, and the segment of a stored main pack stays
published.
-/

namespace ScopeVcs.Compaction.GitPool

open Mutation IntegerColumns

variable {pool pool' : GitPool} {repoId : String} {now nowUnix : ℕ}

/-! ## Uploads -/

/-- The upload of a segment is in this state. -/
def InState (pool : GitPool) (segmentId : String) (state : GitSegmentUploadState) : Prop :=
  ∃ upload, pool.uploads.find? segmentId = some upload ∧ upload.state = state

theorem find?_transition {p : GitSegmentUpload → Bool} {state : GitSegmentUploadState}
    (segmentId : String) :
    (pool.transition p state now).uploads.find? segmentId =
      (pool.uploads.find? segmentId).map fun upload =>
        if p upload then { upload with state, updatedAtUnix := max upload.updatedAtUnix now }
        else upload := by
  simp only [transition, Table.find?_update]

theorem InState.transition {p : GitSegmentUpload → Bool} {state state' : GitSegmentUploadState}
    {segmentId : String} (h : pool.InState segmentId state)
    (hp : ∀ upload, upload.segmentId = segmentId → upload.state = state → p upload = true →
      state' = state) : (pool.transition p state' now).InState segmentId state := by
  obtain ⟨upload, hfind, hstate⟩ := h
  have hkey : upload.segmentId = segmentId := (Table.find?_eq_some.mp hfind).2
  refine ⟨_, by rw [find?_transition, hfind, Option.map_some], ?_⟩
  split
  · rename_i hchanged
    exact hp upload hkey hstate hchanged
  · exact hstate

/-- The upload that a transition is about comes into its new state. -/
theorem InState.of_transition {p : GitSegmentUpload → Bool} {state : GitSegmentUploadState}
    {upload : GitSegmentUpload} (hfind : pool.uploads.find? upload.segmentId = some upload)
    (hp : p upload = true) : (pool.transition p state now).InState upload.segmentId state :=
  ⟨_, by rw [find?_transition, hfind, Option.map_some, if_pos hp], rfl⟩

/-! ## The invariant -/

/-- The main packs of a repository, in the order of the table. -/
def mainRows (pool : GitPool) (repoId : String) : List GitPoolPack :=
  (pool.packs.select (ofMain repoId)).map PoolPackRow.pack

structure Inv (pool : GitPool) (heads : String → Option GitHead) : Prop where
  chain : ∀ repoId, ∃ ks, MainPacks.Counter ⟨pool.loadMainPoolPacks repoId, heads repoId, true⟩ ks
  published : ∀ row ∈ pool.packs, row.isMain = true → ∀ segmentId, row.segmentId? = some segmentId →
    pool.InState segmentId .published
  distinct : ∀ row ∈ pool.packs, ∀ row' ∈ pool.packs, row.segmentId?.isSome = true →
    row.segmentId? = row'.segmentId? → row = row'

theorem load_perm (pool : GitPool) (repoId : String) :
    (pool.loadMainPoolPacks repoId).Perm (pool.mainRows repoId) :=
  List.perm_insertionSort _ _

/-- Rows that are a chain in some order are loaded as that chain. -/
theorem load_eq {chain : List GitPoolPack} (hperm : (pool.mainRows repoId).Perm chain)
    (hchain : chain.Pairwise fun a b => firstSequence a < firstSequence b) :
    pool.loadMainPoolPacks repoId = chain := by
  have hsorted : (pool.loadMainPoolPacks repoId).Pairwise
      fun a b => firstSequence a ≤ firstSequence b := by
    have : Std.Total fun a b : GitPoolPack => firstSequence a ≤ firstSequence b :=
      ⟨fun a b => le_total _ _⟩
    have : IsTrans GitPoolPack fun a b => firstSequence a ≤ firstSequence b :=
      ⟨fun a b c => le_trans⟩
    exact List.pairwise_insertionSort _ _
  have hboth := (pool.load_perm repoId).trans hperm
  -- two packs of the chain do not start at one sequence
  have hnodup : (chain.map firstSequence).Nodup :=
    List.pairwise_map.mpr (hchain.imp fun hlt => hlt.ne)
  refine List.Perm.eq_of_pairwise (fun a b ha hb hab hba => ?_) hsorted (hchain.imp le_of_lt) hboth
  exact List.inj_on_of_nodup_map hnodup (hboth.subset ha) hb (le_antisymm hab hba)

theorem load_eq_of_rows (h : pool'.packs = pool.packs) :
    pool'.loadMainPoolPacks repoId = pool.loadMainPoolPacks repoId := by
  rw [loadMainPoolPacks, loadMainPoolPacks, h]

/-- The packs stay, and the segments of main packs stay published. -/
theorem Inv.of_uploads {heads : String → Option GitHead} (h : pool.Inv heads)
    (hpacks : pool'.packs = pool.packs)
    (huploads : ∀ row ∈ pool.packs, row.isMain = true → ∀ segmentId,
      row.segmentId? = some segmentId → pool.InState segmentId .published →
      pool'.InState segmentId .published) : pool'.Inv heads where
  chain repoId := by
    rw [load_eq_of_rows hpacks]
    exact h.chain repoId
  published row hrow hmain segmentId hsegment :=
    huploads row (hpacks ▸ hrow) hmain segmentId hsegment
      (h.published row (hpacks ▸ hrow) hmain segmentId hsegment)
  distinct := by
    rw [hpacks]
    exact h.distinct

/-! ## The ledger -/

variable {heads : String → Option GitHead} {segment : GitSegmentRef}

theorem Inv.beginUpload {segmentId objectKey : String} {encodingVersion : ℕ} (h : pool.Inv heads)
    (hok : pool.beginGitSegmentUpload repoId segmentId objectKey encodingVersion nowUnix = .ok pool') :
    pool'.Inv heads := by
  simp only [beginGitSegmentUpload, except_bind_eq_ok] at hok
  obtain ⟨_, -, _, -, _, -, _, -, encoding, -, now, -, _, hunique, hok⟩ := hok
  cases hok
  have hnone : pool.uploads.find? segmentId = none := by
    by_contra hsome
    exact rejectIf_eq_ok.mp hunique (.inl (Option.isSome_iff_ne_none.mpr hsome))
  refine h.of_uploads rfl ?_
  rintro row - - other - ⟨upload, hfind, hstate⟩
  have hne : other ≠ segmentId := by
    rintro rfl
    rw [hnone] at hfind
    cases hfind
  refine ⟨upload, ?_, hstate⟩
  change (pool.uploads.insert _).find? other = _
  rw [Table.find?_insert hnone, if_neg hne, hfind]

theorem Inv.markReady {encryptedBytes : ℕ} (h : pool.Inv heads)
    (hok : pool.markGitSegmentUploadReady segment encryptedBytes nowUnix = .ok pool') :
    pool'.Inv heads := by
  simp only [markGitSegmentUploadReady, except_bind_eq_ok] at hok
  obtain ⟨-, -, -, -, plaintext, -, encrypted, -, now, -, encoding, -, -, -, hok⟩ := hok
  cases hok
  refine h.of_uploads rfl ?_
  rintro row - - id - ⟨upload, hfind, hstate⟩
  refine ⟨upload, ?_, hstate⟩
  simp only [Table.find?_update, hfind, Option.map_some]
  rw [if_neg]
  simp [hstate]

theorem Inv.transition {p : GitSegmentUpload → Bool} {state : GitSegmentUploadState}
    (h : pool.Inv heads)
    (hp : ∀ row ∈ pool.packs, row.isMain = true → ∀ upload, row.segmentId? = some upload.segmentId →
      upload.state = .published → p upload = true → state = .published) :
    (pool.transition p state now).Inv heads := by
  refine h.of_uploads rfl fun row hrow hmain id hsegment hpublished => ?_
  apply hpublished.transition
  rintro upload rfl hstate hchanged
  exact hp row hrow hmain upload hsegment hstate hchanged

theorem Inv.abandon {segmentId : String} (h : pool.Inv heads)
    (hok : pool.abandonGitSegmentUpload segmentId nowUnix = .ok pool') : pool'.Inv heads := by
  simp only [abandonGitSegmentUpload, except_bind_eq_ok] at hok
  obtain ⟨-, -, now, -, hok⟩ := hok
  cases hok
  exact h.transition fun row _ _ upload _ hstate hp => by simp [hstate] at hp

theorem Inv.markDeleted {segmentId : String} (h : pool.Inv heads)
    (hok : pool.markGitSegmentUploadDeleted segmentId nowUnix = .ok pool') : pool'.Inv heads := by
  simp only [markGitSegmentUploadDeleted, except_bind_eq_ok] at hok
  obtain ⟨-, -, now, -, -, -, hok⟩ := hok
  cases hok
  exact h.transition fun row _ _ upload _ hstate hp => by simp [hstate] at hp

theorem retireGitSegment_eq_ok {segmentId : String}
    (hok : pool.retireGitSegment segmentId nowUnix = .ok pool') :
    pool' = pool.transition (pool.isRetirable segmentId) .deleting nowUnix := by
  rw [retireGitSegment, except_bind_eq_ok] at hok
  obtain ⟨now, hnow, hok⟩ := hok
  obtain ⟨-, rfl⟩ := u64ToI64_eq_ok.mp hnow
  cases hok
  rfl

theorem Inv.retire {segmentId : String} (h : pool.Inv heads)
    (hok : pool.retireGitSegment segmentId nowUnix = .ok pool') : pool'.Inv heads := by
  rw [retireGitSegment_eq_ok hok]
  refine h.transition fun row hrow hmain upload hsegment _ hp => ?_
  have hreferenced : pool.packs.any (fun row =>
      row.segmentId? = some upload.segmentId && row.isMain) = true :=
    Table.any_eq_true.mpr ⟨row, hrow, by simp [hsegment, hmain]⟩
  simp [isRetirable, hreferenced] at hp

/-- A segment that could be retired is, unless a main pack refers to it. -/
theorem retireGitSegment_inState {segmentId : String} {state : GitSegmentUploadState}
    (hok : pool.retireGitSegment segmentId nowUnix = .ok pool')
    (hstate : pool.InState segmentId state) (hlive : state = .ready ∨ state = .published)
    (hfree : ∀ row ∈ pool.packs, row.isMain = true → row.segmentId? ≠ some segmentId) :
    pool'.InState segmentId .deleting := by
  rw [retireGitSegment_eq_ok hok]
  obtain ⟨upload, hfind, rfl⟩ := hstate
  have hkey : upload.segmentId = segmentId := (Table.find?_eq_some.mp hfind).2
  subst hkey
  apply InState.of_transition hfind
  have hnone : pool.packs.any (fun row =>
      row.segmentId? = some upload.segmentId && row.isMain) = false := by
    rw [Table.any_eq_false]
    intro row hrow
    by_cases hmain : row.isMain = true
    · simp [hfree row hrow hmain]
    · simp [hmain]
  rcases hlive with hready | hpublished
  · simp [isRetirable, hnone, hready]
  · simp [isRetirable, hnone, hpublished]

theorem publishGitSegment_eq_ok (hok : pool.publishGitSegment repoId segment nowUnix = .ok pool') :
    pool' = pool.transition (isPublishable repoId segment) .published nowUnix ∧
      pool'.InState segment.segmentId .published := by
  simp only [publishGitSegment, except_bind_eq_ok] at hok
  obtain ⟨_, -, _, -, now, hnow, _, hone, hok⟩ := hok
  obtain ⟨-, rfl⟩ := u64ToI64_eq_ok.mp hnow
  cases hok
  refine ⟨rfl, ?_⟩
  have hany : pool.uploads.any (isPublishable repoId segment) = true := by
    simpa using rejectIf_eq_ok.mp hone
  obtain ⟨upload, hmem, hp⟩ := Table.any_eq_true.mp hany
  have hkey : upload.segmentId = segment.segmentId := by
    simp only [isPublishable, Bool.and_eq_true, decide_eq_true_eq] at hp
    exact hp.1.1.1.1.1
  rw [← hkey]
  exact InState.of_transition (Table.find?_eq_some.mpr ⟨hmem, rfl⟩) hp

/-! ## Registering -/

variable {pack : GitPoolPack}

theorem publishStorage_eq_ok {storage : GitPoolPackStorage}
    (hok : pool.publishStorage repoId nowUnix storage = .ok pool') :
    pool'.packs = pool.packs ∧
      (∀ segment, storage.segment? = some segment → pool'.InState segment.segmentId .published) ∧
      (∀ id, pool.InState id .published → pool'.InState id .published) ∧
      ∀ id state, (∀ segment, storage.segment? = some segment → segment.segmentId ≠ id) →
        pool.InState id state → pool'.InState id state := by
  cases storage with
  | inline bytes =>
    cases hok
    exact ⟨rfl, nofun, fun _ => id, fun _ _ _ => id⟩
  | segment segment =>
    obtain ⟨rfl, hpublished⟩ := publishGitSegment_eq_ok hok
    refine ⟨rfl, ?_, ?_, ?_⟩
    · rintro _ ⟨⟩
      exact hpublished
    · exact fun id hid => hid.transition fun _ _ _ _ => rfl
    · intro id state hne hid
      apply hid.transition
      intro upload hkey _ hp
      simp only [isPublishable, Bool.and_eq_true, decide_eq_true_eq] at hp
      exact absurd (hp.1.1.1.1.1.symm.trans hkey) (hne segment rfl)

/-- A registered pack is the last row; its segment is published and is no other row's. -/
structure Registered (pool : GitPool) (row : PoolPackRow) (pool' : GitPool) : Prop where
  rows : pool'.packs.rows = pool.packs.rows ++ [row]
  fresh : ∀ other ∈ pool.packs, row.segmentId?.isSome = true → other.segmentId? ≠ row.segmentId?
  published : ∀ id, row.segmentId? = some id → pool'.InState id .published
  stays : ∀ id, pool.InState id .published → pool'.InState id .published
  others : ∀ id state, row.segmentId? ≠ some id → pool.InState id state → pool'.InState id state

theorem registerGitPoolPack_eq_ok
    (hok : pool.registerGitPoolPack repoId pack nowUnix = .ok pool') :
    pool.Registered ⟨repoId, pack, nowUnix⟩ pool' := by
  simp only [registerGitPoolPack, except_bind_eq_ok] at hok
  obtain ⟨mid, hstorage, _, -, now, hnow, _, hunique, hok⟩ := hok
  obtain ⟨-, rfl⟩ := u64ToI64_eq_ok.mp hnow
  cases hok
  obtain ⟨hpacks, hpublished, hstays, hothers⟩ := publishStorage_eq_ok hstorage
  have hfree := rejectIf_eq_ok.mp hunique
  rw [Bool.not_eq_true, violatesUnique, Table.any_eq_false, hpacks] at hfree
  have hkey : PoolPackRow.id ⟨repoId, pack, nowUnix⟩ ∉ pool.packs.rows.map PoolPackRow.id := by
    intro hmem
    obtain ⟨other, hother, heq⟩ := List.mem_map.mp hmem
    have hfalse := hfree other hother
    simp [heq] at hfalse
  refine ⟨?_, ?_, ?_, hstays, ?_⟩
  · rw [hpacks]
    exact congrArg Table.rows (dif_neg hkey)
  · intro other hother hsome heq
    have hfalse := hfree other hother
    simp [hsome, heq] at hfalse
  · intro id hid
    obtain ⟨segment, hsegment, rfl⟩ := Option.map_eq_some_iff.mp hid
    exact hpublished segment hsegment
  · intro id state hne hid
    refine hothers id state (fun segment hsegment heq => hne ?_) hid
    exact Option.map_eq_some_iff.mpr ⟨segment, hsegment, heq⟩

namespace Registered

variable {row : PoolPackRow}

theorem mem_iff (h : pool.Registered row pool') {r : PoolPackRow} :
    r ∈ pool'.packs ↔ r ∈ pool.packs ∨ r = row := by
  rw [Table.mem_def, h.rows, List.mem_append, List.mem_singleton]
  rfl

theorem mainRows (h : pool.Registered row pool') (repoId : String) :
    pool'.mainRows repoId =
      pool.mainRows repoId ++ if ofMain repoId row = true then [row.pack] else [] := by
  rw [GitPool.mainRows, GitPool.mainRows, Table.select, Table.select, h.rows, List.filter_append,
    List.map_append, List.filter_singleton]
  by_cases hmain : ofMain repoId row = true <;> simp [hmain]

theorem segments (h : pool.Registered row pool')
    (hpublished : ∀ r ∈ pool.packs, r.isMain = true → ∀ id, r.segmentId? = some id →
      pool.InState id .published)
    (hdistinct : ∀ r ∈ pool.packs, ∀ r' ∈ pool.packs, r.segmentId?.isSome = true →
      r.segmentId? = r'.segmentId? → r = r') :
    (∀ r ∈ pool'.packs, r.isMain = true → ∀ id, r.segmentId? = some id →
      pool'.InState id .published) ∧
    (∀ r ∈ pool'.packs, ∀ r' ∈ pool'.packs, r.segmentId?.isSome = true →
      r.segmentId? = r'.segmentId? → r = r') := by
  constructor
  · intro r hr hmain id hid
    rcases h.mem_iff.mp hr with hold | rfl
    · exact h.stays id (hpublished r hold hmain id hid)
    · exact h.published id hid
  · intro r hr r' hr' hsome heq
    rcases h.mem_iff.mp hr with hold | rfl
    · rcases h.mem_iff.mp hr' with hold' | rfl
      · exact hdistinct r hold r' hold' hsome heq
      · exact absurd heq (h.fresh r hold (heq ▸ hsome))
    · rcases h.mem_iff.mp hr' with hold' | rfl
      · exact absurd heq.symm (h.fresh r' hold' hsome)
      · rfl

end Registered

/-- A push to main extends the chain of its repository. -/
theorem Inv.push {next : GitHead} {u : Unit} (h : pool.Inv heads)
    (hadvance : validateMainPackAdvance (heads repoId) next pack = .ok u)
    (hok : pool.registerGitPoolPack repoId pack nowUnix = .ok pool') :
    pool'.Inv (Function.update heads repoId (some next)) := by
  have hregistered := registerGitPoolPack_eq_ok hok
  obtain ⟨hpublished, hdistinct⟩ := hregistered.segments h.published h.distinct
  refine ⟨fun r => ?_, hpublished, hdistinct⟩
  obtain ⟨ks, hks⟩ := h.chain r
  by_cases hr : r = repoId
  · subst hr
    have hpush : MainPacks.push ⟨pool.loadMainPoolPacks r, heads r, true⟩ next pack =
        .ok ⟨pool.loadMainPoolPacks r ++ [pack], some next, true⟩ := by
      rw [MainPacks.push, hadvance]
      rfl
    have hnext := hks.push hpush
    have hmain : ofMain r ⟨r, pack, nowUnix⟩ = true := by
      have howner := (validateMainPackAdvance_eq_ok.mp hadvance).2.1
      simp [ofMain, PoolPackRow.isMain, howner, GitPoolPackOwner.mainSequences]
    have hload : pool'.loadMainPoolPacks r = pool.loadMainPoolPacks r ++ [pack] := by
      apply load_eq _ hnext.linked.pairwise_firstSequence
      rw [hregistered.mainRows, if_pos hmain]
      exact (pool.load_perm r).symm.append_right _
    rw [hload, Function.update_self]
    exact ⟨_, hnext⟩
  · have hother : ofMain r ⟨repoId, pack, nowUnix⟩ ≠ true := by
      simp [ofMain, Ne.symm hr]
    have hload : pool'.loadMainPoolPacks r = pool.loadMainPoolPacks r := by
      change (pool'.mainRows r).insertionSort _ = (pool.mainRows r).insertionSort _
      rw [hregistered.mainRows, if_neg hother, List.append_nil]
    rw [hload, Function.update_of_ne hr]
    exact ⟨ks, hks⟩

/-- The pack of a request leaves the main packs. -/
theorem Inv.registerRequestPack {requestId : String} {scope : RequestPackScope} (h : pool.Inv heads)
    (howner : pack.owner = .request requestId scope)
    (hok : pool.registerGitPoolPack repoId pack nowUnix = .ok pool') : pool'.Inv heads := by
  have hregistered := registerGitPoolPack_eq_ok hok
  obtain ⟨hpublished, hdistinct⟩ := hregistered.segments h.published h.distinct
  refine ⟨fun r => ?_, hpublished, hdistinct⟩
  have hother : ofMain r ⟨repoId, pack, nowUnix⟩ ≠ true := by
    simp [ofMain, PoolPackRow.isMain, howner, GitPoolPackOwner.mainSequences]
  have hload : pool'.loadMainPoolPacks r = pool.loadMainPoolPacks r := by
    change (pool'.mainRows r).insertionSort _ = (pool.mainRows r).insertionSort _
    rw [hregistered.mainRows, if_neg hother, List.append_nil]
  rw [hload]
  exact h.chain r

/-! ## Replacing -/

theorem mem_load {p : GitPoolPack} :
    p ∈ pool.loadMainPoolPacks repoId ↔
      ∃ row ∈ pool.packs, row.repoId = repoId ∧ row.isMain = true ∧ row.pack = p := by
  rw [(pool.load_perm repoId).mem_iff, GitPool.mainRows, List.mem_map]
  simp [Table.mem_select, ofMain, and_assoc]

theorem deleteMainPacks_eq_ok {ids : List String}
    (hok : pool.deleteMainPacks repoId ids = .ok pool') :
    pool'.uploads = pool.uploads ∧
      (∀ row, row ∈ pool'.packs ↔ row ∈ pool.packs ∧ ¬(ofMain repoId row = true ∧ row.id ∈ ids)) ∧
      ∀ r, pool'.mainRows r =
        if r = repoId then (pool.mainRows r).filter (fun pack => pack.id ∉ ids)
        else pool.mainRows r := by
  simp only [deleteMainPacks, except_bind_eq_ok] at hok
  obtain ⟨_, -, hok⟩ := hok
  cases hok
  refine ⟨rfl, fun row => ?_, fun r => ?_⟩
  · rw [Table.mem_delete, ← Bool.not_eq_true]
    simp
  · rw [GitPool.mainRows, GitPool.mainRows, Table.select, Table.select, Table.delete,
      List.filter_filter]
    by_cases hr : r = repoId
    · subst hr
      rw [if_pos rfl, List.filter_map, List.filter_filter]
      congr 1
      apply List.filter_congr
      intro row _
      by_cases hid : row.pack.id ∈ ids <;> simp [PoolPackRow.id, hid]
    · rw [if_neg hr]
      congr 1
      apply List.filter_congr
      intro row _
      by_cases hmain : ofMain r row = true
      · have hother : ofMain repoId row = false := by
          simp only [ofMain, Bool.and_eq_true, decide_eq_true_eq] at hmain ⊢
          rw [hmain.1]
          simp [hr]
        simp [hother]
      · simp [hmain]

/-- No main pack refers to the segment. -/
def Free (pool : GitPool) (segmentId : String) : Prop :=
  ∀ row ∈ pool.packs, row.isMain = true → row.segmentId? ≠ some segmentId

theorem InState.retire_deleting {id segmentId : String} (h : pool.InState id .deleting)
    (hok : pool.retireGitSegment segmentId nowUnix = .ok pool') : pool'.InState id .deleting := by
  rw [retireGitSegment_eq_ok hok]
  exact h.transition fun _ _ _ _ => rfl

theorem InState.retire_other {id segmentId : String} {state : GitSegmentUploadState}
    (h : pool.InState id state) (hne : id ≠ segmentId)
    (hok : pool.retireGitSegment segmentId nowUnix = .ok pool') : pool'.InState id state := by
  rw [retireGitSegment_eq_ok hok]
  apply h.transition
  intro upload hkey _ hp
  simp only [isRetirable, Bool.and_eq_true, decide_eq_true_eq] at hp
  exact absurd (hkey.symm.trans hp.1.1) hne

/-- Retiring the segments of replaced packs that no main pack refers to: they end up deleted. -/
theorem foldlM_retireReplaced {packs : List GitPoolPack} (h : pool.Inv heads)
    (hfree : ∀ p ∈ packs, ∀ s, p.storage.segment? = some s → s.segmentId ≠ segment.segmentId →
      pool.Free s.segmentId ∧
        (pool.InState s.segmentId .published ∨ pool.InState s.segmentId .deleting))
    (hok : packs.foldlM (retireReplaced segment nowUnix) pool = .ok pool') :
    pool'.Inv heads ∧
      (∀ id, pool.InState id .deleting → pool'.InState id .deleting) ∧
      ∀ p ∈ packs, ∀ s, p.storage.segment? = some s → s.segmentId ≠ segment.segmentId →
        pool'.InState s.segmentId .deleting := by
  induction packs generalizing pool with
  | nil =>
    cases hok
    exact ⟨h, fun _ => id, nofun⟩
  | cons p packs ih =>
    rw [List.foldlM_cons, except_bind_eq_ok] at hok
    obtain ⟨mid, hfirst, hrest⟩ := hok
    obtain ⟨hhead, htail⟩ := List.forall_mem_cons.mp hfree
    rw [retireReplaced] at hfirst
    split at hfirst
    · rename_i hnone
      cases hfirst
      obtain ⟨hinv, hkeep, hdeleted⟩ := ih h htail hrest
      refine ⟨hinv, hkeep, List.forall_mem_cons.mpr ⟨fun s hs => ?_, hdeleted⟩⟩
      rw [hnone] at hs
      cases hs
    · rename_i t ht
      split at hfirst
      · rename_i hsame
        cases hfirst
        obtain ⟨hinv, hkeep, hdeleted⟩ := ih h htail hrest
        refine ⟨hinv, hkeep, List.forall_mem_cons.mpr ⟨fun s hs hne => ?_, hdeleted⟩⟩
        rw [ht] at hs
        cases hs
        exact absurd hsame hne
      · rename_i hne
        obtain ⟨hfreeT, hstateT⟩ := hhead t ht hne
        have hretired : mid.InState t.segmentId .deleting := by
          rcases hstateT with hpublished | hdeleting
          · exact retireGitSegment_inState hfirst hpublished (.inr rfl) hfreeT
          · exact hdeleting.retire_deleting hfirst
        have hpacks : mid.packs = pool.packs := by rw [retireGitSegment_eq_ok hfirst]; rfl
        obtain ⟨hinv, hkeep, hdeleted⟩ := ih (h.retire hfirst) (fun q hq s hs hs' => by
          obtain ⟨hfreeS, hstateS⟩ := htail q hq s hs hs'
          refine ⟨fun row hrow => hfreeS row (hpacks ▸ hrow), ?_⟩
          by_cases heq : s.segmentId = t.segmentId
          · rw [heq]
            exact .inr hretired
          · rcases hstateS with hpublished | hdeleting
            · exact .inl (hpublished.retire_other heq hfirst)
            · exact .inr (hdeleting.retire_deleting hfirst)) hrest
        refine ⟨hinv, fun id hid => hkeep id (hid.retire_deleting hfirst),
          List.forall_mem_cons.mpr ⟨fun s hs _ => ?_, hdeleted⟩⟩
        rw [ht] at hs
        cases hs
        exact hkeep _ hretired

/-- Of the packs of a chain, those without the ids of two neighbours are the others. -/
theorem filter_neighbours {front rest : List GitPoolPack} {p q : GitPoolPack}
    (hnodup : ((front ++ p :: q :: rest).map GitPoolPack.id).Nodup) :
    (front ++ p :: q :: rest).filter (fun pack => pack.id ∉ [p.id, q.id]) = front ++ rest := by
  have hdistinct : ((p :: q :: (front ++ rest)).map GitPoolPack.id).Nodup := by
    refine (List.Perm.map _ ?_).nodup_iff.mp hnodup
    exact (List.perm_middle).trans (.cons p List.perm_middle)
  simp only [List.map_cons, List.nodup_cons, List.mem_cons, not_or] at hdistinct
  obtain ⟨⟨-, hp⟩, hq, -⟩ := hdistinct
  have hkeep : ∀ x ∈ front ++ rest, x.id ∉ [p.id, q.id] := by
    intro x hx
    simp only [List.mem_cons, List.not_mem_nil, or_false, not_or]
    exact ⟨fun heq => hp (heq ▸ List.mem_map_of_mem hx), fun heq => hq (heq ▸ List.mem_map_of_mem hx)⟩
  rw [List.filter_append, List.filter_cons, List.filter_cons, if_neg (by simp), if_neg (by simp),
    List.filter_eq_self.mpr fun x hx => decide_eq_true (hkeep x (List.mem_append_left _ hx)),
    List.filter_eq_self.mpr fun x hx => decide_eq_true (hkeep x (List.mem_append_right _ hx))]

/-- The packs of a plan give way to their replacement in the chain, and their segments are retired
unless the replacement uses them. -/
theorem Inv.replaceSelected {plan : GitCompactionPlan} {replacement : GitPoolPack} {u : Unit}
    (h : pool.Inv heads) (hvalid : plan.validateReplacement replacement = .ok u)
    (hcurrent : pool.stillCurrent repoId plan = true)
    (hsegment : replacement.storage.segment? = some segment)
    (hok : pool.replaceSelected repoId plan replacement segment nowUnix = .ok pool') :
    pool'.Inv heads ∧ ∀ p ∈ selected plan, ∀ s, p.storage.segment? = some s →
      s.segmentId ≠ segment.segmentId → pool'.InState s.segmentId .deleting := by
  obtain ⟨p, q⟩ := plan
  obtain ⟨hp, hq⟩ : p ∈ pool.loadMainPoolPacks repoId ∧ q ∈ pool.loadMainPoolPacks repoId := by
    simpa [stillCurrent, selected] using hcurrent
  simp only [GitPool.replaceSelected, except_bind_eq_ok] at hok
  obtain ⟨kept, hdelete, registered, hregister, hretire⟩ := hok
  obtain ⟨huploads, hrows, hmain⟩ := deleteMainPacks_eq_ok hdelete
  have hregistered := registerGitPoolPack_eq_ok hregister
  have hkeptState : ∀ id state, pool.InState id state → kept.InState id state := by
    rintro id state ⟨upload, hfind, hstate⟩
    exact ⟨upload, by rw [huploads]; exact hfind, hstate⟩
  obtain ⟨hpublished, hdistinct⟩ := hregistered.segments
    (fun row hrow hm id hid => hkeptState _ _ (h.published row ((hrows row).mp hrow).1 hm id hid))
    fun row hrow row' hrow' => h.distinct row ((hrows row).mp hrow).1 row' ((hrows row').mp hrow').1
  obtain ⟨a, b, c, n, -, -, -, -, howner, -⟩ := GitCompactionPlan.validateReplacement_eq_ok hvalid
  have hreplacementMain : PoolPackRow.isMain ⟨repoId, replacement, nowUnix⟩ = true := by
    simp [PoolPackRow.isMain, howner, GitPoolPackOwner.mainSequences]
  have hinv : registered.Inv heads := by
    refine ⟨fun r => ?_, hpublished, hdistinct⟩
    obtain ⟨ks, hks⟩ := h.chain r
    by_cases hr : r = repoId
    · subst hr
      obtain ⟨front, rest, ks', hload, hlinked⟩ := hks.linked.replace hp hq hvalid
      have hperm : (registered.mainRows r).Perm (front ++ replacement :: rest) := by
        have hids : ((pool.loadMainPoolPacks r).map GitPoolPack.id).Nodup := by
          refine ((pool.load_perm r).map _).nodup_iff.mpr ?_
          rw [GitPool.mainRows, List.map_map]
          exact (List.filter_sublist.map _).nodup pool.packs.nodup
        have hfiltered : (kept.mainRows r).Perm (front ++ rest) := by
          rw [hmain, if_pos rfl]
          refine ((pool.load_perm r).symm.filter _).trans (.of_eq ?_)
          change pool.loadMainPoolPacks r = _ at hload
          rw [hload] at hids ⊢
          exact filter_neighbours hids
        rw [hregistered.mainRows, if_pos (by simp [ofMain, hreplacementMain])]
        exact (hfiltered.append_right _).trans
          ((List.perm_append_singleton _ _).trans List.perm_middle.symm)
      rw [load_eq hperm hlinked.pairwise_firstSequence]
      exact ⟨ks', hlinked, hks.bound, by rintro ⟨⟩⟩
    · have hother : ofMain r ⟨repoId, replacement, nowUnix⟩ ≠ true := by
        simp [ofMain, Ne.symm hr]
      have hload : registered.loadMainPoolPacks r = pool.loadMainPoolPacks r := by
        change (registered.mainRows r).insertionSort _ = (pool.mainRows r).insertionSort _
        rw [hregistered.mainRows, if_neg hother, List.append_nil, hmain, if_neg hr]
      rw [hload]
      exact ⟨ks, hks⟩
  have hfree : ∀ x ∈ selected ⟨(p, q)⟩, ∀ s, x.storage.segment? = some s →
      s.segmentId ≠ segment.segmentId → registered.Free s.segmentId ∧
        (registered.InState s.segmentId .published ∨ registered.InState s.segmentId .deleting) := by
    intro x hx s hs hne
    have hxload : x ∈ pool.loadMainPoolPacks repoId := by
      simp only [selected, List.mem_cons, List.not_mem_nil, or_false] at hx
      rcases hx with rfl | rfl
      · exact hp
      · exact hq
    obtain ⟨row, hrow, hrepo, hrowMain, rfl⟩ := mem_load.mp hxload
    have hid : row.segmentId? = some s.segmentId := Option.map_eq_some_iff.mpr ⟨s, hs, rfl⟩
    have hnotReplacement :
        PoolPackRow.segmentId? ⟨repoId, replacement, nowUnix⟩ ≠ some s.segmentId := by
      rw [PoolPackRow.segmentId?, hsegment, Option.map_some]
      exact fun heq => hne (Option.some.inj heq).symm
    refine ⟨fun other hother _ heq => ?_, .inl ?_⟩
    · rcases hregistered.mem_iff.mp hother with hkept | rfl
      · -- the rows have distinct segments, and the one with this segment was deleted
        obtain ⟨hstored, hnotDeleted⟩ := (hrows other).mp hkept
        have hsame : row = other :=
          h.distinct row hrow other hstored (hid ▸ rfl) (hid.trans heq.symm)
        subst hsame
        exact hnotDeleted ⟨by simp [ofMain, hrepo, hrowMain], List.mem_map_of_mem hx⟩
      · exact hnotReplacement heq
    · exact hregistered.others _ _ hnotReplacement
        (hkeptState _ _ (h.published row hrow hrowMain _ hid))
  obtain ⟨hinv', -, hdeleted⟩ := foldlM_retireReplaced hinv hfree hretire
  exact ⟨hinv', hdeleted⟩

/-- Replaced packs give up their segments, and a refused replacement its own, where it was ready and no
main pack refers to it. -/
theorem Inv.replaceMainPoolPacksWithCompaction {plan : GitCompactionPlan} {replacement : GitPoolPack}
    {replaced : Bool} (h : pool.Inv heads)
    (hok : pool.replaceMainPoolPacksWithCompaction repoId plan replacement nowUnix =
      .ok (pool', replaced)) :
    pool'.Inv heads ∧ ∃ segment, replacement.storage.segment? = some segment ∧
      (replaced = true → ∀ pack ∈ selected plan, ∀ s, pack.storage.segment? = some s →
        s.segmentId ≠ segment.segmentId → pool'.InState s.segmentId .deleting) ∧
      (replaced = false → pool.Free segment.segmentId → ∀ state, state = .ready ∨ state = .published →
        pool.InState segment.segmentId state → pool'.InState segment.segmentId .deleting) := by
  simp only [GitPool.replaceMainPoolPacksWithCompaction, except_bind_eq_ok] at hok
  obtain ⟨u, hvalid, hok⟩ := hok
  rw [ofCompaction, mapError_eq_ok] at hvalid
  split at hok
  · cases hok
  · rename_i segment hsegment
    split at hok
    · rename_i hcurrent
      obtain ⟨result, hreplaced, heq⟩ := except_map_eq_ok.mp hok
      cases heq
      obtain ⟨hinv, hdeleted⟩ := h.replaceSelected hvalid hcurrent hsegment hreplaced
      exact ⟨hinv, segment, hsegment, fun _ => hdeleted, nofun⟩
    · obtain ⟨result, hretired, heq⟩ := except_map_eq_ok.mp hok
      cases heq
      refine ⟨h.retire hretired, segment, hsegment, nofun, fun _ hfree state hlive hstate => ?_⟩
      exact retireGitSegment_inState hretired hstate hlive hfree

end ScopeVcs.Compaction.GitPool
