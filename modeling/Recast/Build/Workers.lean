import Recast.Log.Traced

/-!
# Works done side by side

Works that do not depend on each other are done side by side by several workers. If all of them
succeed, the results are put together in the order of the works. If some fail, the fault of one of
them is the fault of the whole, and works that have not been begun by then are not done at all.
Which fault it is, which works are begun and in what order the reports of different works come in is
up to the workers, and so is whether there can be as many of them as are asked for.

`Workers` holds these choices with the bounds on them. Nothing else is known of the workers, so what
holds for all `Workers` holds of every run.
-/

set_option autoImplicit false

namespace Recast

/-- Reports of several works come in one by one, those of each work in their order. -/
inductive Interleaved : List (List Event) → List Event → Prop
  | done {logs : List (List Event)} : (∀ log ∈ logs, log = []) → Interleaved logs []
  | next {front back : List (List Event)} {log events : List Event} {event : Event} :
      Interleaved (front ++ log :: back) events →
        Interleaved (front ++ (event :: log) :: back) (event :: events)

/-- What is up to the workers. -/
structure Workers where
  /-- How many there are if no number is asked for. -/
  usual : Nat
  usual_pos : 0 < usual
  /-- Why there cannot be so many, if there cannot. -/
  refusal? : Nat → Option String
  /-- The place of the work whose fault counts, by the places of all works that fail. -/
  blamed : List Nat → Nat
  blamed_mem : ∀ failing, failing ≠ [] → blamed failing ∈ failing
  /-- Whether the work at a place is begun, by the places of all works that fail. -/
  begins : List Nat → Nat → Bool
  begins_all : ∀ place, begins [] place = true
  begins_blamed : ∀ failing, failing ≠ [] → begins failing (blamed failing) = true
  /-- The reports as they come in, by the reports of each work. -/
  interleave : List (List Event) → List Event
  interleaved : ∀ logs, Interleaved logs (interleave logs)

namespace Workers

variable {ε α : Type}

/-- The fault of the work at a place, if it fails. -/
def faultAt? (works : List (Traced ε α)) (place : Nat) : Option ε :=
  works[place]?.bind Traced.fault?

/-- The places of the works that fail. -/
def failing (works : List (Traced ε α)) : List Nat :=
  (List.range works.length).filter fun place => (faultAt? works place).isSome

/-- The reports of the works that are begun, work by work. -/
def begunLogs (workers : Workers) (works : List (Traced ε α)) : List (List Event) :=
  let logs := (works.map Traced.events).zipIdx
  (logs.filter fun log => workers.begins (failing works) log.2).map Prod.fst

/-- Does works side by side. -/
def gather (workers : Workers) (works : List (Traced ε α)) : Traced ε (List α) where
  events := workers.interleave (workers.begunLogs works)
  result :=
    match faultAt? works (workers.blamed (failing works)) with
    | some fault => .error fault
    | none => works.mapM Traced.result

/-! ## One worker -/

/-- Reports can come in work by work. -/
theorem interleaved_flatten (logs : List (List Event)) : Interleaved logs logs.flatten := by
  have hbehind : ∀ front : List (List Event), (∀ log ∈ front, log = []) →
      Interleaved (front ++ logs) logs.flatten := by
    induction logs with
    | nil =>
      intro front hfront
      rw [List.append_nil]
      exact .done hfront
    | cons log logs ih =>
      intro front hfront
      induction log with
      | nil =>
        rw [List.append_cons]
        apply ih
        simpa [or_imp, forall_and] using hfront
      | cons event log ihLog => exact .next ihLog
  exact hbehind [] (List.forall_mem_nil _)

/-- A single worker, who does one work after the other up to the first that fails. -/
def alone : Workers where
  usual := 1
  usual_pos := Nat.one_pos
  refusal? _ := none
  blamed failing := failing.headD 0
  blamed_mem := by
    rintro (_ | ⟨place, failing⟩) hne
    · exact absurd rfl hne
    · exact List.mem_cons_self
  begins failing place := failing.head?.all (place ≤ ·)
  begins_all _ := rfl
  begins_blamed := by
    rintro (_ | ⟨place, failing⟩) hne
    · exact absurd rfl hne
    · exact decide_eq_true (Nat.le_refl place)
  interleave := List.flatten
  interleaved := interleaved_flatten

end Workers

end Recast
