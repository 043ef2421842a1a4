import ScopeVcs.Content.Steps

/-! # Content is deleted while unreferenced, and queued deletions are not forgotten -/

namespace ScopeVcs.Content

open Mutation Relation

variable {digests : Digests} {w w' : World} {i : ℕ}

/-! ## A drain over the steps -/

/-- The later state of a drain: it works on the same batch and keeps its outcomes. -/
def Continues (drain drain' : Drain) : Prop :=
  drain'.loaded = drain.loaded ∧ ∀ o ∈ drain.outcomes, o ∈ drain'.outcomes

theorem Continues.refl (drain : Drain) : Continues drain drain := ⟨rfl, fun _ => id⟩

theorem Continues.trans {d₁ d₂ d₃ : Drain} (h : Continues d₁ d₂) (h' : Continues d₂ d₃) :
    Continues d₁ d₃ :=
  ⟨h'.1.trans h.1, fun o ho => h'.2 o (h.2 o ho)⟩

theorem Continues.settle (drain : Drain) (blob : SourceBlob) (outcome : Outcome) :
    Continues drain (drain.settle blob outcome) :=
  ⟨rfl, fun _ => List.mem_append_left _⟩

/-- Every drain of the first world goes on in the second. -/
def DrainsContinue (w w' : World) : Prop :=
  ∀ i drain, w.drains i = some drain → ∃ drain', w'.drains i = some drain' ∧ Continues drain drain'

theorem DrainsContinue.of_eq (h : w'.drains = w.drains) : DrainsContinue w w' :=
  fun _ drain hi => ⟨drain, h ▸ hi, .refl drain⟩

theorem DrainsContinue.of_update {drain drain' : Drain} (hi : w.drains i = some drain)
    (h : w'.drains = Function.update w.drains i (some drain')) (hcontinues : Continues drain drain') :
    DrainsContinue w w' := by
  intro j d hj
  rw [h]
  by_cases hij : j = i
  · subst hij
    rw [hi] at hj
    cases hj
    exact ⟨drain', Function.update_self .., hcontinues⟩
  · exact ⟨d, by rw [Function.update_of_ne hij, hj], .refl d⟩

theorem DrainsContinue.decide {drain : Drain} {blob : SourceBlob} (hi : w.drains i = some drain) :
    DrainsContinue w (w.decide i drain blob) := by
  rw [World.decide]
  split
  · exact .of_update hi rfl ⟨rfl, fun _ => id⟩
  · exact .of_update hi rfl (.settle ..)
  · exact .of_update hi rfl (.settle ..)

theorem DrainsContinue.act {a : Action} (hact : w.act digests a = some w') :
    DrainsContinue w w' := by
  cases a with
  | tick seconds =>
    cases hact
    exact .of_eq rfl
  | publish i kind bytes gitOid =>
    simp only [World.act, World.publish] at hact
    split at hact
    · cases hact
      exact .of_eq rfl
    · cases hact
  | put i ok effective =>
    obtain ⟨publisher, -, -, hnext⟩ := publisherStep_eq_some hact
    cases hnext
    rw [World.put]
    split <;> exact .of_eq rfl
  | commit i refKind refId reported =>
    obtain ⟨publisher, -, -, hnext⟩ := publisherStep_eq_some hact
    cases hnext
    rw [World.commit]
    split
    · exact .of_eq rfl
    · split <;> exact .of_eq rfl
  | rollBack i =>
    obtain ⟨publisher, -, -, hnext⟩ := publisherStep_eq_some hact
    cases hnext
    exact .of_eq rfl
  | queueRollback i generation nowUnix =>
    obtain ⟨publisher, -, -, hnext⟩ := publisherStep_eq_some (now_eq_some hact)
    obtain ⟨-, w₁, hmap, rfl⟩ := draw_eq_some hnext
    obtain ⟨w₂, hqueue, rfl⟩ := Option.map_eq_some_iff.mp hmap
    obtain ⟨jobs, -, rfl⟩ := queue_eq_some hqueue
    exact .of_eq rfl
  | giveUp i =>
    obtain ⟨publisher, -, -, hnext⟩ := publisherStep_eq_some hact
    cases hnext
    exact .of_eq rfl
  | leave i =>
    simp only [World.act] at hact
    split at hact
    · split at hact
      · cases hact
      · cases hact
        exact .of_eq rfl
    · cases hact
  | dereference removed blobs nowUnix =>
    obtain ⟨-, w₁, hnext, rfl⟩ := draw_eq_some (now_eq_some hact)
    obtain ⟨jobs, -, rfl⟩ := queue_eq_some hnext
    exact .of_eq rfl
  | claim i locked generation nowUnix =>
    obtain ⟨-, w₁, hclaim, rfl⟩ := draw_eq_some (now_eq_some hact)
    rw [World.claim] at hclaim
    split at hclaim
    · rename_i jobs loaded hnone hok
      cases hclaim
      intro j d hj
      have hne : j ≠ i := by
        rintro rfl
        rw [hnone] at hj
        cases hj
      exact ⟨d, (Function.update_of_ne hne ..).trans hj, .refl d⟩
    · cases hclaim
  | acquire i =>
    simp only [World.act] at hact
    split at hact
    · rename_i drain hi
      split at hact
      · rw [World.acquire] at hact
        split at hact
        · cases hact
        · split at hact
          · cases hact
            exact .of_update hi rfl ⟨rfl, fun _ => id⟩
          · cases hact
      · cases hact
    · cases hact
  | decide i =>
    simp only [World.act] at hact
    split at hact
    · rename_i drain hi
      split at hact
      · cases hact
        exact .decide hi
      · cases hact
    · cases hact
  | delete i ok effective =>
    simp only [World.act] at hact
    split at hact
    · rename_i drain hi
      split at hact
      · cases hact
        rw [World.deleteObject]
        split <;> exact .of_update hi rfl (.settle ..)
      · cases hact
    · cases hact
  | release i =>
    simp only [World.act] at hact
    split at hact
    · rename_i drain hi
      split at hact
      · cases hact
        exact .of_update hi rfl ⟨rfl, fun _ => id⟩
      · cases hact
    · cases hact
  | finish i fresh =>
    simp only [World.act] at hact
    split at hact
    · rename_i drain hi
      split at hact
      · obtain ⟨-, w₁, hfinish, hw'⟩ := draw_eq_some hact
        cases hfinish
        subst hw'
        unfold World.finish
        split <;> exact .of_update hi rfl ⟨rfl, fun _ => id⟩
      · cases hact
    · cases hact
  | stop i =>
    obtain ⟨drain, hi, rfl⟩ := Option.map_eq_some_iff.mp hact
    rw [World.stop]
    split <;> exact .of_update hi rfl ⟨rfl, fun _ => id⟩

theorem DrainsContinue.run (hrun : ReflTransGen (World.Step digests) w w') : DrainsContinue w w' := by
  induction hrun with
  | refl => exact .of_eq rfl
  | tail _ hlast ih =>
    obtain ⟨a, hact⟩ := hlast
    intro j d hj
    obtain ⟨d₁, hd₁, hfirst⟩ := ih j d hj
    obtain ⟨d₂, hd₂, hsecond⟩ := DrainsContinue.act hact j d₁ hd₁
    exact ⟨d₂, hd₂, hfirst.trans hsecond⟩

/-! ## A stale claim -/

/-- The end of a drain leaves a row whose claim it lost. -/
theorem DrainInv.find?_finish {drain : Drain} {fresh : SourceBlob → String} {blob : SourceBlob}
    {l : LoadedSourceBlobCleanup} {jobs : Jobs} (hd : DrainInv w i drain) (hl : l ∈ drain.loaded)
    (hkey : l.blob.contentRef = blob.contentRef) (hstale : claimIsLive w.jobs l = false)
    (hjobs : reconcileSourceBlobCleanupRows w.jobs drain.loaded drain.retained fresh drain.nowUnix =
      .ok jobs) : jobs.find? blob.contentRef = w.jobs.find? blob.contentRef := by
  have hlost : ∀ old, w.jobs.find? blob.contentRef = some old → old.completedAtUnix = none →
      ¬∃ l' ∈ drain.loaded, l'.blob.contentRef = blob.contentRef ∧ l'.generation = old.generation := by
    rintro old hold hopen ⟨l', hl', hkey', hgeneration⟩
    have heq : l' = l := List.inj_on_of_nodup_map hd.distinct hl' hl (hkey'.trans hkey.symm)
    subst heq
    simp [claimIsLive, hkey, hold, hgeneration, hopen] at hstale
  rcases reconcileSourceBlobCleanupRows_eq_ok hjobs blob.contentRef with ⟨-, hsettled⟩ | hrequeued
  · generalize hold : w.jobs.find? blob.contentRef = old? at hsettled
    generalize jobs.find? blob.contentRef = new? at hsettled
    cases hsettled with
    | kept => rfl
    | retried old new hclaimed hopen _ _ _ => exact absurd hclaimed (hlost old hold hopen)
    | completed old new hclaimed hopen _ _ => exact absurd hclaimed (hlost old hold hopen)
  · obtain ⟨b, g, row, hb, hbkey, -⟩ := hrequeued
    obtain ⟨b', hunclaimed, hpair⟩ := List.mem_map.mp hb
    cases hpair
    have hany := (List.mem_filter.mp hunclaimed).2
    rw [Bool.not_eq_true', List.any_eq_false] at hany
    exact absurd (by simpa using hkey.trans hbkey.symm) (hany l hl)

/-- A drain that found its claim stale leaves the object and the row in all it does from then on. -/
theorem Inv.step_of_stale {a : Action} {drain : Drain} {blob : SourceBlob}
    {l : LoadedSourceBlobCleanup} (h : Inv digests w) (hi : w.drains i = some drain)
    (hstale : (blob, Outcome.staleClaim) ∈ drain.outcomes) (hl : l ∈ drain.loaded)
    (hkey : l.blob.contentRef = blob.contentRef) (ha : a.drain? = some i)
    (hact : w.act digests a = some w') :
    w'.objects (objectKey blob.contentRef) = w.objects (objectKey blob.contentRef) ∧
      w'.jobs.find? blob.contentRef = w.jobs.find? blob.contentRef := by
  have hd := h.drains i drain hi
  cases a with
  | acquire j =>
    cases ha
    simp only [World.act, hi, World.acquire] at hact
    split at hact
    · split at hact
      · cases hact
      · split at hact
        · cases hact
          exact ⟨rfl, rfl⟩
        · cases hact
    · cases hact
  | decide j =>
    cases ha
    simp only [World.act, hi] at hact
    split at hact
    · cases hact
      rw [World.decide]
      split <;> exact ⟨rfl, rfl⟩
    · cases hact
  | delete j ok effective =>
    cases ha
    simp only [World.act, hi] at hact
    split at hact
    · rename_i b hphase
      cases hact
      -- the blob at hand is not one that was settled before
      have hundecided : drain.undecided = some b := by rw [Drain.undecided, hphase]
      have honce := hd.once
      rw [Drain.blobs, hundecided, List.map_append, List.nodup_append] at honce
      have hne : blob.contentRef ≠ b.contentRef :=
        honce.2.2 _ (List.mem_map_of_mem (List.mem_map.mpr ⟨_, hstale, rfl⟩)) _ (by simp)
      have hkeys : objectKey blob.contentRef ≠ objectKey b.contentRef :=
        fun heq => hne (objectKey_injective heq)
      rw [World.deleteObject]
      refine ⟨?_, by split <;> rfl⟩
      have hupdate : (if ok = true ∨ effective = true then
            Function.update w.objects (objectKey b.contentRef) none else w.objects)
          (objectKey blob.contentRef) = w.objects (objectKey blob.contentRef) := by
        split
        · exact Function.update_of_ne hkeys ..
        · rfl
      split <;> exact hupdate
    · cases hact
  | release j =>
    cases ha
    simp only [World.act, hi] at hact
    split at hact
    · cases hact
      exact ⟨rfl, rfl⟩
    · cases hact
  | finish j fresh =>
    cases ha
    simp only [World.act, hi] at hact
    split at hact
    · obtain ⟨-, w₁, hfinish, hw'⟩ := draw_eq_some hact
      cases hfinish
      subst hw'
      unfold World.finish
      split
      · rename_i jobs hjobs
        exact ⟨rfl, hd.find?_finish hl hkey (hd.stale blob hstale l hl hkey) hjobs⟩
      · exact ⟨rfl, rfl⟩
    · cases hact
  | stop j =>
    cases ha
    simp only [World.act, hi, Option.map_some] at hact
    cases hact
    rw [World.stop]
    split <;> exact ⟨rfl, rfl⟩
  | _ => cases ha

/-- In every world reached, references point to stored bytes and completed rows were resolved; and a
drain that decides about a claim it has lost leaves the object and the row from then on. -/
theorem World.cleanup_safe (h : w.Reachable digests) :
    (∀ reference ∈ w.references, Stored digests w.objects reference.contentRef) ∧
    (∀ contentRef row, w.jobs.find? contentRef = some row → row.completedAtUnix.isSome = true →
      resolvedSinceQueued w.log contentRef = true) ∧
    (∀ i drain blob l w₁ w₂ w₃ a, w.drains i = some drain → drain.phase = .fenced blob →
      l ∈ drain.loaded → l.blob.contentRef = blob.contentRef → claimIsLive w.jobs l = false →
      w.act digests (.decide i) = some w₁ → ReflTransGen (World.Step digests) w₁ w₂ →
      a.drain? = some i → w₂.act digests a = some w₃ →
      w₃.objects (objectKey blob.contentRef) = w₂.objects (objectKey blob.contentRef) ∧
        w₃.jobs.find? blob.contentRef = w₂.jobs.find? blob.contentRef) := by
  have hinv := h.inv
  refine ⟨hinv.references, hinv.completed, ?_⟩
  intro i drain blob l w₁ w₂ w₃ a hi hphase hl hkey hlost hdecide hrun ha hact
  have hd := hinv.drains i drain hi
  have hdecision : sourceBlobCleanupDecision w.jobs w.references drain.loaded blob = .staleClaim :=
    (sourceBlobCleanupDecision_eq_staleClaim hd.distinct hl hkey).mpr hlost
  have hw₁ : w₁ = w.setDrain i (drain.settle blob .staleClaim) := by
    simp only [World.act, hi, hphase, World.decide, hdecision] at hdecide
    exact (Option.some.inj hdecide).symm
  subst hw₁
  have hreach₁ := Transition.Reachable.tail h ⟨_, hdecide⟩
  have hreach₂ : w₂.Reachable digests := by
    obtain ⟨w₀, hw₀, hrun₀⟩ := hreach₁
    exact ⟨w₀, hw₀, hrun₀.trans hrun⟩
  obtain ⟨drain₂, hi₂, hloaded, houtcomes⟩ := DrainsContinue.run hrun i _ (Function.update_self ..)
  exact hreach₂.inv.step_of_stale hi₂ (houtcomes _ (List.mem_append_right _ (List.mem_singleton_self _)))
    (hloaded ▸ hl) hkey ha hact

/-! ## A run -/

def lengthDigests : Digests where
  sha256 bytes := String.ofList (List.replicate bytes.length 'a')
  gitBlobOid bytes := String.ofList (List.replicate bytes.length 'b')

def publishedBlob : SourceBlob :=
  { contentObjectForBytes lengthDigests .gitBundle [7] with gitOid := "head" }

def rejectedBlob : SourceBlob :=
  { contentObjectForBytes lengthDigests .gitBundle [7, 7] with gitOid := "head" }

/-- One bundle is published and another one is rejected and deleted; then the published one is queued,
claimed, and queued again before the drain decides. -/
def requeuedRun : List Action :=
  [.publish 0 .gitBundle [7] "head", .put 0 true true, .commit 0 "run_source" "run-1" true, .leave 0,
    .publish 1 .gitBundle [7, 7] "head", .put 1 true true, .rollBack 1, .queueRollback 1 "g1" 0,
    .leave 1, .tick 600, .claim 0 [] "g2" 600, .acquire 0, .decide 0, .delete 0 true true, .release 0,
    .finish 0 fun _ => "", .dereference [] [(publishedBlob, "g3")] 600, .tick 600,
    .claim 1 [] "g4" 1200, .acquire 1, .dereference [] [(publishedBlob, "g5")] 1200]

theorem World.cleanup_safe_requeued :
    ∃ w w₁ w₂ w₃,
      requeuedRun.foldlM (act lengthDigests) (initial 0 fun _ => none) = some w ∧
      w.act lengthDigests (.decide 1) = some w₁ ∧ w₁.act lengthDigests (.release 1) = some w₂ ∧
      w₂.act lengthDigests (.finish 1 fun _ => "") = some w₃ ∧
      Stored lengthDigests w.objects publishedBlob.contentRef ∧
      resolvedSinceQueued w.log rejectedBlob.contentRef = true ∧
      w₃.objects (objectKey publishedBlob.contentRef) =
        w₂.objects (objectKey publishedBlob.contentRef) ∧
      w₃.jobs.find? publishedBlob.contentRef = w₂.jobs.find? publishedBlob.contentRef := by
  have hfacts : (requeuedRun.foldlM (act lengthDigests) (initial 0 fun _ => none)).any (fun w =>
      (w.references.find? ⟨publishedBlob.contentRef, "run_source", "run-1"⟩).isSome &&
      (w.jobs.find? rejectedBlob.contentRef).any (fun row => row.completedAtUnix.isSome) &&
      (w.drains 1).any (fun drain => drain.phase = .fenced publishedBlob &&
        drain.loaded = [⟨publishedBlob, "g4"⟩] && claimIsLive w.jobs ⟨publishedBlob, "g4"⟩ = false) &&
      (w.act lengthDigests (.decide 1)).any fun w₁ =>
        (w₁.act lengthDigests (.release 1)).any fun w₂ =>
          (w₂.act lengthDigests (.finish 1 fun _ => "")).isSome) = true := by
    decide +kernel
  obtain ⟨w, hw, hfacts⟩ := (Option.any_eq_true _ _).mp hfacts
  simp only [Bool.and_eq_true, decide_eq_true_eq, Option.any_eq_true] at hfacts
  obtain ⟨⟨⟨hreference, row, hrow, hdone⟩, drain, hi, ⟨hphase, hloaded⟩, hlost⟩, w₁, hdecide, w₂,
    hrelease, hfinish⟩ := hfacts
  obtain ⟨w₃, hfinish⟩ := Option.isSome_iff_exists.mp hfinish
  obtain ⟨reference, hreference⟩ := Option.isSome_iff_exists.mp hreference
  obtain ⟨hmem, hkey⟩ := Table.find?_eq_some.mp hreference
  have hreach : w.Reachable lengthDigests :=
    Transition.Reachable.foldlM (fun s a t h => ⟨a, h⟩) (.of_init ⟨0, _, rfl⟩) hw
  have hsafe := cleanup_safe hreach
  obtain ⟨hobject, hsame⟩ := hsafe.2.2 1 drain publishedBlob ⟨publishedBlob, "g4"⟩ w₁ w₂ w₃
    (.finish 1 fun _ => "") hi hphase (by rw [hloaded]; exact List.mem_singleton_self _) rfl hlost
    hdecide (.single ⟨_, hrelease⟩) rfl hfinish
  have hstored := hsafe.1 reference hmem
  rw [show reference.contentRef = publishedBlob.contentRef from congrArg _ hkey] at hstored
  exact ⟨w, w₁, w₂, w₃, hw, hdecide, hrelease, hfinish, hstored, hsafe.2.1 _ row hrow hdone, hobject,
    hsame⟩

end ScopeVcs.Content
