import Recast.Log.Event

/-!
# Traced computations

A computation that may fail and that reports events on the way. The events up to a failure are kept.
What a computation yields does not depend on the events: `Traced.result_bind` says that results
compose as they do in `Except`, so every statement about results can leave the events aside.

Two computations are compared by a relation between their results: `Traced.Relates` asks for the
same events and the same failure besides, and passes through sequences (`Traced.Relates.bind`).
-/

set_option autoImplicit false

namespace Recast

/-- The events that were reported, in order, and the result or the failure. -/
structure Traced (ε α : Type) where
  events : List Event
  result : Except ε α
deriving Repr

namespace Traced

variable {ε α β : Type}

instance : Monad (Traced ε) where
  pure a := { events := [], result := .ok a }
  bind x f :=
    match x.result with
    | .ok a => { events := x.events ++ (f a).events, result := (f a).result }
    | .error e => { events := x.events, result := .error e }

/-- Reports an event. -/
def report (event : Event) : Traced ε Unit :=
  { events := [event], result := .ok () }

/-- Reports several events. -/
def reportAll (events : List Event) : Traced ε Unit :=
  { events, result := .ok () }

/-- Fails. -/
def fail (e : ε) : Traced ε α :=
  { events := [], result := .error e }

/-- A result without events. -/
def ofExcept (result : Except ε α) : Traced ε α :=
  { events := [], result }

/-- The failure, if there is one. -/
def fault? (x : Traced ε α) : Option ε :=
  match x.result with
  | .ok _ => none
  | .error e => some e

/-- Changes the failure. -/
def mapFault {ε' : Type} (f : ε → ε') (x : Traced ε α) : Traced ε' α :=
  { events := x.events, result := x.result.mapError f }

@[simp] theorem result_ofExcept (result : Except ε α) : (ofExcept result).result = result :=
  rfl

@[simp] theorem result_mapFault {ε' : Type} (f : ε → ε') (x : Traced ε α) :
    (x.mapFault f).result = x.result.mapError f :=
  rfl

theorem fault?_eq_some_iff {x : Traced ε α} {e : ε} : x.fault? = some e ↔ x.result = .error e := by
  rw [fault?]
  cases x.result <;> simp

@[simp] theorem result_pure (a : α) : (pure a : Traced ε α).result = .ok a :=
  rfl

@[simp] theorem result_fail (e : ε) : (fail e : Traced ε α).result = .error e :=
  rfl

@[simp] theorem result_report (event : Event) : (report event : Traced ε Unit).result = .ok () :=
  rfl

@[simp] theorem result_reportAll (events : List Event) :
    (reportAll events : Traced ε Unit).result = .ok () :=
  rfl

@[simp] theorem result_bind (x : Traced ε α) (f : α → Traced ε β) :
    (x >>= f).result = x.result >>= fun a => (f a).result := by
  simp only [bind]
  cases x.result <;> rfl

@[simp] theorem result_map (f : α → β) (x : Traced ε α) : (f <$> x).result = f <$> x.result := by
  simp only [Functor.map]
  cases x.result <;> rfl

theorem result_map_eq_ok_iff {f : α → β} {x : Traced ε α} {b : β} :
    (f <$> x).result = .ok b ↔ ∃ a, x.result = .ok a ∧ f a = b := by
  rw [result_map]
  cases x.result <;> simp [Functor.map, Except.map]

theorem result_mapFault_eq_ok_iff {ε' : Type} {f : ε → ε'} {x : Traced ε α} {a : α} :
    (x.mapFault f).result = .ok a ↔ x.result = .ok a := by
  rw [result_mapFault]
  cases x.result with
  | ok b => constructor <;> exact fun h => congrArg Except.ok (Except.ok.inj h)
  | error fault => constructor <;> intro h <;> cases h

/-- A sequence succeeds if both of its parts do. -/
theorem result_bind_eq_ok_iff {x : Traced ε α} {f : α → Traced ε β} {b : β} :
    (x >>= f).result = .ok b ↔ ∃ a, x.result = .ok a ∧ (f a).result = .ok b := by
  rw [result_bind]
  cases x.result <;> simp [bind, Except.bind]

/-- A sequence fails if its first part does, or if its second part does after the first. -/
theorem result_bind_eq_error_iff {x : Traced ε α} {f : α → Traced ε β} {e : ε} :
    (x >>= f).result = .error e ↔
      x.result = .error e ∨ ∃ a, x.result = .ok a ∧ (f a).result = .error e := by
  rw [result_bind]
  cases x.result <;> simp [bind, Except.bind]

/-- A list is made if its first element is made and then the rest. -/
theorem result_cons_eq_ok_iff {x : Traced ε α} {xs : Traced ε (List α)} {made : List α} :
    (do return (← x) :: (← xs) : Traced ε (List α)).result = .ok made ↔
      ∃ a as, x.result = .ok a ∧ xs.result = .ok as ∧ made = a :: as := by
  simp only [result_bind_eq_ok_iff, result_pure, Except.ok.injEq]
  constructor
  · intro ⟨a, ha, as, has, hmade⟩
    exact ⟨a, as, ha, has, hmade.symm⟩
  · intro ⟨a, as, ha, has, hmade⟩
    exact ⟨a, ha, as, has, hmade.symm⟩

/-! ## Related computations -/

/-- Two computations that report the same events, and that fail alike or yield related results. -/
inductive Relates (related : α → β → Prop) : Traced ε α → Traced ε β → Prop
  | ok {events : List Event} {a : α} {b : β} :
      related a b → Relates related { events, result := .ok a } { events, result := .ok b }
  | error {events : List Event} {e : ε} :
      Relates related { events, result := .error e } { events, result := .error e }

namespace Relates

variable {γ δ : Type} {related : α → β → Prop} {relatedNext : γ → δ → Prop}

theorem pure {a : α} {b : β} (h : related a b) :
    Relates related (Pure.pure a : Traced ε α) (Pure.pure b) :=
  .ok h

/-- What related computations report and what comes of them. -/
theorem results {x : Traced ε α} {y : Traced ε β} (h : Relates related x y) :
    x.events = y.events ∧ ((∃ e, x.result = .error e ∧ y.result = .error e) ∨
      ∃ a b, x.result = .ok a ∧ y.result = .ok b ∧ related a b) := by
  cases h with
  | ok hab => exact ⟨rfl, .inr ⟨_, _, rfl, rfl, hab⟩⟩
  | error => exact ⟨rfl, .inl ⟨_, rfl, rfl⟩⟩

/-- A computation is related to itself, if all its results are. -/
theorem refl {same : α → α → Prop} (h : ∀ a, same a a) (x : Traced ε α) : Relates same x x := by
  obtain ⟨events, result⟩ := x
  cases result with
  | ok a => exact .ok (h a)
  | error e => exact .error

/-- Sequences are related, if their parts are. -/
theorem bind {x : Traced ε α} {y : Traced ε β} {f : α → Traced ε γ} {g : β → Traced ε δ}
    (hxy : Relates related x y) (hnext : ∀ a b, related a b → Relates relatedNext (f a) (g b)) :
    Relates relatedNext (x >>= f) (y >>= g) := by
  cases hxy with
  | error => exact .error
  | @ok events a b hab =>
    have hfg := hnext a b hab
    simp only [Bind.bind]
    generalize f a = next at hfg
    generalize g b = otherNext at hfg
    cases hfg with
    | ok hcd => exact .ok hcd
    | error => exact .error

theorem map {x : Traced ε α} {y : Traced ε β} {f : α → γ} {g : β → δ}
    (hxy : Relates related x y) (h : ∀ a b, related a b → relatedNext (f a) (g b)) :
    Relates relatedNext (f <$> x) (g <$> y) :=
  hxy.bind fun a b hab => .pure (h a b hab)

theorem mapFault {ε' : Type} {x : Traced ε α} {y : Traced ε β} (hxy : Relates related x y)
    (f : ε → ε') : Relates related (x.mapFault f) (y.mapFault f) := by
  cases hxy with
  | ok hab => exact .ok hab
  | error => exact .error

end Relates

end Traced

end Recast
