import ScopeVcs.Repository.Access
import ScopeVcs.ReviewedUpdates.ConfiguredLabels

/-! # Who may read what

Access names one view, and through it the views that its includes lead to. Reading another view never
shows more than reading the own one.
-/

namespace ScopeVcs

open Relation

/-! ## Reading through a view -/

namespace Views

variable {views : Views} {reader target view : ViewId}

theorem mayRead_iff : views.mayRead reader target = true ↔
    ReflTransGen (Worklist.Edge views.next) reader target := by
  rw [mayRead, decide_eq_true_eq, mem_labels]

theorem mayRead_trans (h : views.mayRead reader view = true)
    (h' : views.mayRead view target = true) : views.mayRead reader target = true :=
  mayRead_iff.mpr ((mayRead_iff.mp h).trans (mayRead_iff.mp h'))

/-- Only readers of the full view read it. -/
theorem mayRead_privateView : views.mayRead reader .privateView = true ↔ reader = .privateView := by
  constructor
  · intro h
    by_contra hne
    exact privateView_notMem_labels hne (of_decide_eq_true h)
  · rintro rfl
    exact mayRead_iff.mpr .refl

/-- What a view shows, the readers of the view see in their own. -/
theorem shows_of_mayRead (h : views.mayRead reader target = true) {path : ScopePath}
    {label : ViewId} (hshown : views.shows target path label = true) :
    views.shows reader path label = true := by
  by_cases hreader : reader = .privateView
  · rw [hreader, shows_privateView]
  · have htarget : target ≠ .privateView := by
      rintro rfl
      exact hreader (mayRead_privateView.mp h)
    obtain ⟨hlabel, hpath⟩ := (shows_of_ne htarget path label).mp hshown
    refine (shows_of_ne hreader path label).mpr ⟨?_, hpath⟩
    exact mem_labels.mpr ((mayRead_iff.mp h).trans (mem_labels.mp hlabel))

theorem anyone_eq (views : Views) : ∀ id ∈ views.anyone, id = .publicView := by
  intro id hid
  obtain ⟨d, hd, rfl⟩ := Option.map_eq_some_iff.mp hid
  have hreaders : d.readers = .anyone := by simpa using List.find?_some hd
  exact (views.wellFormed.readers_anyone d (List.mem_of_find?_eq_some hd)).mp hreaders

end Views

namespace RepositoryAccess

variable {access : RepositoryAccess} {views : Views} {view : ViewId}

theorem canReadView_iff : access.canReadView views view = true ↔ (views.get view).isSome = true ∧
    ∃ reader, access.readerView views = some reader ∧ views.mayRead reader view = true := by
  rw [canReadView, Bool.and_eq_true, Option.any_eq_true]

/-- Runs are for members who read through the full view. -/
theorem ensureRunReader_iff : access.ensureRunReader views = .ok () ↔
    access.isMaintainer = true ∧ access.view = .privateView := by
  have hfull : (views.get views.full).isSome = true := by
    obtain ⟨d, hd, hall⟩ := views.wellFormed.full_defined
    rw [Views.full_eq, ← views.wellFormed.full_id d hd hall, Views.get_of_mem hd]
    rfl
  have hreads : access.ensureRunReader views = .ok () ↔ access.readsFullView views = true := by
    rw [ensureRunReader]
    split_ifs with h <;> simp [h]
  rw [hreads, readsFullView, canReadView_iff, and_iff_right hfull, Views.full_eq]
  simp only [Views.mayRead_privateView, exists_eq_right]
  unfold readerView isMaintainer
  cases access.actor with
  | public_ =>
    simp only [Bool.false_eq_true, false_and, iff_false]
    exact fun hanyone => absurd (views.anyone_eq _ hanyone) (by decide)
  | member => simp
  | owner => simp

/-- Only the owner, before the first push, and members with the full view push to main themselves. -/
theorem mainPushMode_eq_ready {lifecycleState : RepoLifecycleState}
    (h : access.mainPushMode lifecycleState views = .ready) :
    lifecycleState = .ready ∧ access.canPush = true ∧ access.ensureRunReader views = .ok () := by
  unfold mainPushMode at h
  split_ifs at h with hfirst hdenied hview
  push Not at hdenied
  obtain ⟨hready, hpush, hmaintainer⟩ := hdenied
  rw [Bool.ne_false_iff] at hpush hmaintainer
  exact ⟨hready, hpush, ensureRunReader_iff.mpr ⟨hmaintainer, views.full_eq ▸ hview⟩⟩

end RepositoryAccess

namespace PushedRepository

variable {state : PushedRepository} {plain : ScopePath → Prop}

end PushedRepository

end ScopeVcs
