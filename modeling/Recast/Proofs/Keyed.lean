import Mathlib.Data.List.Induction
import Mathlib.Data.List.Nodup

/-!
# Lists with one element for each key

Putting an element into a list under its key takes the place of the element with that key, or the
end of the list. Both the namespaces of a program and the types of a namespace are kept this way.

Elements that are put one after the other stand in the order in which their keys first occur
(`map_key_putAll`), and each of them is the last one with its key (`isLast_of_mem_putAll`). The
elements that came under a key already taken are the `repeats` of the keys.
-/

set_option autoImplicit false

namespace Recast.Keyed

section FirstOccurrences

variable {α : Type} [BEq α] [LawfulBEq α]

theorem eraseDups_concat_of_mem {l : List α} {a : α} (h : a ∈ l) :
    (l ++ [a]).eraseDups = l.eraseDups := by
  rw [List.eraseDups_append, List.removeAll]
  simp [h]

theorem eraseDups_concat_of_not_mem {l : List α} {a : α} (h : a ∉ l) :
    (l ++ [a]).eraseDups = l.eraseDups ++ [a] := by
  rw [List.eraseDups_append, List.removeAll]
  simp [h, List.eraseDups_cons]

theorem nodup_eraseDups (l : List α) : l.eraseDups.Nodup := by
  induction l using List.reverseRecOn with
  | nil => exact List.nodup_nil
  | append_singleton l a ih =>
    by_cases h : a ∈ l
    · rw [eraseDups_concat_of_mem h]
      exact ih
    · rw [eraseDups_concat_of_not_mem h]
      refine List.nodup_append.2 ⟨ih, List.nodup_singleton a, ?_⟩
      intro b hb c hc heq
      rw [List.mem_singleton.1 hc] at heq
      exact h (heq ▸ List.mem_eraseDups.1 hb)

/-- Dropping the repetitions of the second part first makes no difference. -/
theorem eraseDups_append_eraseDups (l m : List α) :
    (l ++ m.eraseDups).eraseDups = (l ++ m).eraseDups := by
  induction m using List.reverseRecOn with
  | nil => rfl
  | append_singleton m a ih =>
    rw [← List.append_assoc]
    by_cases hm : a ∈ m
    · rw [eraseDups_concat_of_mem hm, ih,
        eraseDups_concat_of_mem (List.mem_append_right l hm)]
    · rw [eraseDups_concat_of_not_mem hm, ← List.append_assoc]
      by_cases hl : a ∈ l
      · rw [eraseDups_concat_of_mem (List.mem_append_left _ hl), ih,
          eraseDups_concat_of_mem (List.mem_append_left m hl)]
      · have hnot : a ∉ l ++ m.eraseDups := by
          rw [List.mem_append, List.mem_eraseDups]
          exact not_or.2 ⟨hl, hm⟩
        have hnot' : a ∉ l ++ m := by
          rw [List.mem_append]
          exact not_or.2 ⟨hl, hm⟩
        rw [eraseDups_concat_of_not_mem hnot, ih, eraseDups_concat_of_not_mem hnot']

end FirstOccurrences

section Repeats

variable {α : Type} [DecidableEq α]

/-- The entries of a list that occurred before, in order. -/
def repeats (l : List α) : List α :=
  (l.zipIdx.filter fun entry => entry.1 ∈ l.take entry.2).map Prod.fst

theorem repeats_concat (l : List α) (a : α) :
    repeats (l ++ [a]) = repeats l ++ if a ∈ l then [a] else [] := by
  -- What stands before an entry does not change when another one comes behind it.
  have hbefore : ∀ entry ∈ l.zipIdx, decide (entry.1 ∈ (l ++ [a]).take entry.2)
      = decide (entry.1 ∈ l.take entry.2) := by
    intro entry hentry
    have hlt := List.snd_lt_of_mem_zipIdx hentry
    rw [List.take_append_of_le_length (by omega)]
  have hlast : (l ++ [a]).take l.length = l := by
    rw [List.take_left']
    rfl
  rw [repeats, List.zipIdx_append, List.filter_append, List.filter_congr hbefore, List.map_append,
    repeats]
  congr 1
  simp only [List.zipIdx_singleton, Nat.zero_add, List.filter_cons, List.filter_nil, hlast]
  by_cases h : a ∈ l
  · rw [if_pos h, if_pos (decide_eq_true h)]
    rfl
  · rw [if_neg h, if_neg (by simpa using h)]
    rfl

end Repeats

section Put

variable {α κ : Type} [DecidableEq κ] (key : α → κ)

/-- Puts an element in the place of the one with its key, or at the end. -/
def put (l : List α) (x : α) : List α :=
  if l.any fun old => key old = key x then l.map fun old => if key old = key x then x else old
  else l ++ [x]

/-- Puts several elements, one after the other. -/
def putAll (xs : List α) : List α :=
  xs.foldl (put key) []

/-- Some element is the last one with its key. -/
def IsLast (xs : List α) (x : α) : Prop :=
  ∃ before after, xs = before ++ x :: after ∧ ∀ later ∈ after, key later ≠ key x

variable {key}

theorem put_of_mem {l : List α} {x : α} (h : key x ∈ l.map key) :
    put key l x = l.map fun old => if key old = key x then x else old := by
  rw [put, if_pos]
  obtain ⟨old, hold, heq⟩ := List.mem_map.1 h
  exact List.any_eq_true.2 ⟨old, hold, decide_eq_true heq⟩

theorem put_of_not_mem {l : List α} {x : α} (h : key x ∉ l.map key) : put key l x = l ++ [x] := by
  rw [put, if_neg]
  rw [List.any_eq_true]
  rintro ⟨old, hold, heq⟩
  exact h (List.mem_map.2 ⟨old, hold, of_decide_eq_true heq⟩)

theorem find?_eq_none_of_not_mem {l : List α} {k : κ} (h : k ∉ l.map key) :
    l.find? (fun y => key y = k) = none := by
  rw [List.find?_eq_none]
  intro y hy hkey
  exact h (List.mem_map.2 ⟨y, hy, of_decide_eq_true hkey⟩)

/-- Under a key that does not occur nothing is replaced. -/
theorem map_replace_of_not_mem {l : List α} {x : α} (h : key x ∉ l.map key) :
    (l.map fun old => if key old = key x then x else old) = l := by
  refine (List.map_congr_left fun y hy => ?_).trans (List.map_id _)
  exact if_neg fun heq => h (List.mem_map.2 ⟨y, hy, heq⟩)

/-- Putting keeps the keys in their places. -/
theorem map_key_put (l : List α) (x : α) :
    (put key l x).map key = if key x ∈ l.map key then l.map key else l.map key ++ [key x] := by
  split
  case isTrue h =>
    rw [put_of_mem h, List.map_map]
    refine List.map_congr_left fun old _ => ?_
    rw [Function.comp_apply]
    split
    case isTrue heq => exact heq.symm
    case isFalse => rfl
  case isFalse h => rw [put_of_not_mem h, List.map_append, List.map_singleton]

/-- If the keys so far are the first occurrences of some list, then so they are after putting. -/
theorem map_key_put_eq_eraseDups [BEq κ] [LawfulBEq κ] {l : List α} {ks : List κ}
    (h : l.map key = ks.eraseDups) (x : α) :
    (put key l x).map key = (ks ++ [key x]).eraseDups := by
  rw [map_key_put, h]
  split
  case isTrue hmem => rw [eraseDups_concat_of_mem (List.mem_eraseDups.1 hmem)]
  case isFalse hmem =>
    rw [eraseDups_concat_of_not_mem fun hks => hmem (List.mem_eraseDups.2 hks)]

/-- Putting drops what had the key and keeps the rest. -/
theorem mem_put_iff {l : List α} {x y : α} :
    y ∈ put key l x ↔ y = x ∨ y ∈ l ∧ key y ≠ key x := by
  by_cases h : key x ∈ l.map key
  · rw [put_of_mem h, List.mem_map]
    constructor
    · rintro ⟨old, hold, rfl⟩
      split
      case isTrue => exact Or.inl rfl
      case isFalse hne => exact Or.inr ⟨hold, hne⟩
    · rintro (rfl | ⟨hy, hne⟩)
      · obtain ⟨old, hold, heq⟩ := List.mem_map.1 h
        exact ⟨old, hold, if_pos heq⟩
      · exact ⟨y, hy, if_neg hne⟩
  · rw [put_of_not_mem h, List.mem_append, List.mem_singleton]
    constructor
    · rintro (hy | rfl)
      · exact Or.inr ⟨hy, fun heq => h (heq ▸ List.mem_map_of_mem hy)⟩
      · exact Or.inl rfl
    · rintro (rfl | ⟨hy, -⟩)
      · exact Or.inr rfl
      · exact Or.inl hy

/-- Looking up a key after putting. -/
theorem find?_put (l : List α) (x : α) (k : κ) :
    (put key l x).find? (fun y => key y = k)
      = if key x = k then some x else l.find? fun y => key y = k := by
  by_cases h : key x ∈ l.map key
  · have htest : ((fun y => decide (key y = k)) ∘ fun old => if key old = key x then x else old)
        = fun y => decide (key y = k) := by
      funext old
      rw [Function.comp_apply]
      split
      case isTrue heq => rw [heq]
      case isFalse => rfl
    rw [put_of_mem h, List.find?_map, htest]
    cases hfound : l.find? fun y => key y = k with
    | none =>
      split
      case isTrue heq =>
        obtain ⟨old, hold, hkey⟩ := List.mem_map.1 h
        have hnone := List.find?_eq_none.1 hfound old hold
        simp [hkey, heq] at hnone
      case isFalse => rfl
    | some old =>
      have hold : key old = k := by simpa using List.find?_some hfound
      subst hold
      simp only [Option.map_some, eq_comm (a := key old)]
      split <;> rfl
  · rw [put_of_not_mem h, List.find?_append]
    split
    case isTrue heq =>
      rw [find?_eq_none_of_not_mem (heq ▸ h), List.find?_singleton, if_pos (decide_eq_true heq),
        Option.none_or]
    case isFalse hne =>
      rw [List.find?_singleton, if_neg (by simpa using hne), Option.or_none]

/-- If the keys are distinct, then each element is found under its key. -/
theorem find?_key_eq_some {l : List α} (hl : (l.map key).Nodup) {x : α} (hx : x ∈ l) :
    l.find? (fun y => key y = key x) = some x := by
  cases hfound : l.find? fun y => key y = key x with
  | none => exact absurd (decide_eq_true rfl) (List.find?_eq_none.1 hfound x hx)
  | some y =>
    have hkey : key y = key x := by simpa using List.find?_some hfound
    rw [List.inj_on_of_nodup_map hl (List.mem_of_find?_eq_some hfound) hx hkey]

/-- If the keys are distinct, then what has some key is what is found under it. -/
theorem filter_key_eq {l : List α} (hl : (l.map key).Nodup) (k : κ) :
    (l.filter fun y => key y = k) = (l.find? fun y => key y = k).toList := by
  induction l with
  | nil => rfl
  | cons x l ih =>
    rw [List.map_cons, List.nodup_cons] at hl
    rw [List.filter_cons, List.find?_cons]
    by_cases hx : key x = k
    · have hrest : (l.find? fun y => key y = k) = none := find?_eq_none_of_not_mem (hx ▸ hl.1)
      simp [hx, ih hl.2, hrest]
    · simp [hx, ih hl.2]

/-- If the keys are distinct, then a list is given by its keys in order and by what is found under
each of them. -/
theorem filterMap_find?_map_key {l : List α} (hl : (l.map key).Nodup) :
    ((l.map key).filterMap fun k => l.find? fun y => key y = k) = l := by
  rw [List.filterMap_map]
  refine (List.filterMap_congr fun x hx => ?_).trans List.filterMap_some
  exact find?_key_eq_some hl hx

/-- Elements can be changed before or after putting, if they keep their keys. -/
theorem map_put {β : Type} {key' : β → κ} {f : α → β} (hf : ∀ x, key' (f x) = key x) (l : List α)
    (x : α) : (put key l x).map f = put key' (l.map f) (f x) := by
  have hkeys : (l.map f).map key' = l.map key := by
    rw [List.map_map]
    exact List.map_congr_left fun y _ => hf y
  by_cases h : key x ∈ l.map key
  · have h' : key' (f x) ∈ (l.map f).map key' := by
      rw [hkeys, hf]
      exact h
    rw [put_of_mem h, put_of_mem h', List.map_map, List.map_map]
    refine List.map_congr_left fun y _ => ?_
    simp only [Function.comp_apply, hf]
    split <;> rfl
  · have h' : key' (f x) ∉ (l.map f).map key' := by
      rw [hkeys, hf]
      exact h
    rw [put_of_not_mem h, put_of_not_mem h', List.map_append, List.map_singleton]

/-- A choice of elements that looks at keys only can be made before putting. -/
theorem filter_put {test : α → Bool} {l : List α} {x : α}
    (htest : ∀ y ∈ l, key y = key x → test y = test x) :
    (put key l x).filter test = if test x then put key (l.filter test) x else l.filter test := by
  by_cases h : key x ∈ l.map key
  · have hreplaced : ∀ y ∈ l,
        (test ∘ fun old => if key old = key x then x else old) y = test y := by
      intro y hy
      rw [Function.comp_apply]
      split
      case isTrue heq => exact (htest y hy heq).symm
      case isFalse => rfl
    rw [put_of_mem h, List.filter_map, List.filter_congr hreplaced]
    split
    case isTrue hx =>
      obtain ⟨old, hold, heq⟩ := List.mem_map.1 h
      have hkept : old ∈ l.filter test := List.mem_filter.2 ⟨hold, (htest old hold heq).trans hx⟩
      rw [put_of_mem (List.mem_map.2 ⟨old, hkept, heq⟩)]
    case isFalse hx =>
      -- What passes the test has another key than the element that does not.
      refine map_replace_of_not_mem fun hmem => ?_
      obtain ⟨y, hy, heq⟩ := List.mem_map.1 hmem
      obtain ⟨hmem, hy⟩ := List.mem_filter.1 hy
      exact hx ((htest y hmem heq).symm.trans hy)
  · have hfilter : key x ∉ (l.filter test).map key := by
      intro hmem
      obtain ⟨y, hy, heq⟩ := List.mem_map.1 hmem
      exact h (List.mem_map.2 ⟨y, List.mem_of_mem_filter hy, heq⟩)
    rw [put_of_not_mem h, put_of_not_mem hfilter, List.filter_append, List.filter_singleton]
    cases test x <;> simp

/-- If the keys are distinct, then an element takes the place of the one that is found under its
key, and nothing else changes. -/
theorem exists_put_eq_of_mem {l : List α} (hl : (l.map key).Nodup) {x : α}
    (h : key x ∈ l.map key) :
    ∃ before old after, l = before ++ old :: after ∧
      (l.find? fun y => key y = key x) = some old ∧ put key l x = before ++ x :: after := by
  obtain ⟨old, hold, heq⟩ := List.mem_map.1 h
  obtain ⟨before, after, rfl⟩ := List.append_of_mem hold
  rw [List.map_append, List.map_cons, List.nodup_middle, List.nodup_cons, List.mem_append, not_or,
    heq] at hl
  obtain ⟨⟨hbefore, hafter⟩, -⟩ := hl
  refine ⟨before, old, after, rfl, ?_, ?_⟩
  · rw [List.find?_append, find?_eq_none_of_not_mem hbefore, Option.none_or]
    exact List.find?_cons_of_pos (decide_eq_true heq)
  · rw [put_of_mem h, List.map_append, List.map_cons, if_pos heq, map_replace_of_not_mem hbefore,
      map_replace_of_not_mem hafter]

/-- How much putting adds, if the keys are distinct: what is put, less what it takes the place
of. -/
theorem length_flatMap_put {β : Type} (parts : α → List β) {l : List α}
    (hl : (l.map key).Nodup) (x : α) :
    ((put key l x).flatMap parts).length
        + ((l.find? fun y => key y = key x).map fun y => (parts y).length).getD 0
      = (l.flatMap parts).length + (parts x).length := by
  by_cases h : key x ∈ l.map key
  · obtain ⟨before, old, after, rfl, hfound, hput⟩ := exists_put_eq_of_mem hl h
    rw [hput, hfound]
    simp only [List.flatMap_append, List.flatMap_cons, List.length_append, Option.map_some,
      Option.getD_some]
    omega
  · rw [put_of_not_mem h, find?_eq_none_of_not_mem h, List.flatMap_append, List.length_append,
      List.flatMap_singleton]
    rfl

/-! ## Putting several elements -/

theorem putAll_concat (xs : List α) (x : α) :
    putAll key (xs ++ [x]) = put key (putAll key xs) x := by
  rw [putAll, List.foldl_append]
  rfl

/-- The elements stand in the order in which their keys first occur. -/
theorem map_key_putAll [BEq κ] [LawfulBEq κ] (xs : List α) :
    (putAll key xs).map key = (xs.map key).eraseDups := by
  induction xs using List.reverseRecOn with
  | nil => rfl
  | append_singleton xs x ih =>
    rw [putAll_concat, map_key_put_eq_eraseDups ih, List.map_append, List.map_singleton]

theorem nodup_map_key_putAll (xs : List α) : ((putAll key xs).map key).Nodup := by
  rw [map_key_putAll]
  exact nodup_eraseDups (xs.map key)

/-- Each element is the last one with its key. -/
theorem isLast_of_mem_putAll {xs : List α} {x : α} (h : x ∈ putAll key xs) : IsLast key xs x := by
  induction xs using List.reverseRecOn with
  | nil => simp [putAll] at h
  | append_singleton xs y ih =>
    rw [putAll_concat, mem_put_iff] at h
    rcases h with rfl | ⟨hx, hne⟩
    · exact ⟨xs, [], rfl, by simp⟩
    · obtain ⟨before, after, rfl, hlater⟩ := ih hx
      refine ⟨before, after ++ [y], by simp, ?_⟩
      intro later hmem
      rcases List.mem_append.1 hmem with hmem | hmem
      · exact hlater later hmem
      · rw [List.mem_singleton.1 hmem]
        exact hne.symm

theorem mem_of_mem_putAll {xs : List α} {x : α} (h : x ∈ putAll key xs) : x ∈ xs := by
  obtain ⟨before, after, rfl, -⟩ := isLast_of_mem_putAll h
  exact List.mem_append_right before List.mem_cons_self

/-- Under each key the last element is found. -/
theorem find?_putAll (xs : List α) (k : κ) :
    (putAll key xs).find? (fun y => key y = k) = (xs.filter fun y => key y = k).getLast? := by
  induction xs using List.reverseRecOn with
  | nil => rfl
  | append_singleton xs x ih =>
    rw [putAll_concat, find?_put, ih, List.filter_append, List.filter_singleton]
    by_cases h : key x = k
    · simp [h]
    · simp [h]

/-- Elements with distinct keys stay as they are. -/
theorem putAll_of_nodup {xs : List α} (h : (xs.map key).Nodup) : putAll key xs = xs := by
  induction xs using List.reverseRecOn with
  | nil => rfl
  | append_singleton xs x ih =>
    rw [List.map_append, List.map_singleton] at h
    obtain ⟨hxs, -, hdisjoint⟩ := List.nodup_append.1 h
    have hx : key x ∉ xs.map key := by
      intro hmem
      exact hdisjoint (key x) hmem (key x) List.mem_cons_self rfl
    rw [putAll_concat, ih hxs, put_of_not_mem hx]

theorem putAll_putAll (xs : List α) : putAll key (putAll key xs) = putAll key xs :=
  putAll_of_nodup (nodup_map_key_putAll xs)

/-- Putting the second part among itself first makes no difference. -/
theorem putAll_append_putAll (xs ys : List α) :
    putAll key (xs ++ putAll key ys) = putAll key (xs ++ ys) := by
  -- Both sides have the same keys in the same order.
  have hkeys : (putAll key (xs ++ putAll key ys)).map key = (putAll key (xs ++ ys)).map key := by
    rw [map_key_putAll, map_key_putAll, List.map_append, List.map_append, map_key_putAll,
      eraseDups_append_eraseDups]
  -- What comes last under a key is last among the second part, if there is any there.
  have hlast : ∀ k, ((putAll key ys).filter fun y => key y = k).getLast?
      = (ys.filter fun y => key y = k).getLast? := by
    intro k
    rw [← find?_putAll, putAll_putAll, find?_putAll]
  have hfound : ∀ k, (putAll key (xs ++ putAll key ys)).find? (fun y => key y = k)
      = (putAll key (xs ++ ys)).find? fun y => key y = k := by
    intro k
    rw [find?_putAll, find?_putAll, List.filter_append, List.filter_append, List.getLast?_append,
      List.getLast?_append, hlast]
  rw [← filterMap_find?_map_key (nodup_map_key_putAll (xs ++ putAll key ys)), hkeys]
  simp only [hfound]
  exact filterMap_find?_map_key (nodup_map_key_putAll (xs ++ ys))

/-- A choice of elements that looks at keys only can be made before putting them. -/
theorem filter_putAll {test : α → Bool} {xs : List α}
    (htest : ∀ x ∈ xs, ∀ y ∈ xs, key x = key y → test x = test y) :
    (putAll key xs).filter test = putAll key (xs.filter test) := by
  induction xs using List.reverseRecOn with
  | nil => rfl
  | append_singleton xs x ih =>
    -- What was put is among what was given, so the test looks at keys only there, too.
    have hearlier : ∀ y ∈ putAll key xs, key y = key x → test y = test x := fun y hy =>
      htest y (List.mem_append_left [x] (mem_of_mem_putAll hy)) x (by simp)
    have hrest := ih fun y hy z hz =>
      htest y (List.mem_append_left [x] hy) z (List.mem_append_left [x] hz)
    rw [putAll_concat, filter_put hearlier, hrest, List.filter_append, List.filter_singleton]
    cases test x with
    | true => exact (putAll_concat (xs.filter test) x).symm
    | false =>
      rw [if_neg Bool.false_ne_true]
      exact congrArg _ (List.append_nil _).symm

end Put

end Recast.Keyed
