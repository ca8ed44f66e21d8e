/-!
# Blank characters

The characters that count as blank everywhere in this library, and the removal of blanks from the
two ends of a text. `isBlank` is the Unicode property `White_Space`: it holds of the no-break space
and of the ideographic space, and it does not hold of the zero-width space or of the byte-order
mark.

A text is its trimmed form between blanks (`exists_eq_append_trim`), and blanks that are put at
either end of a text are trimmed off again.
-/

set_option autoImplicit false

namespace Recast.Text

/-- The ranges of code points with the property `White_Space`, both ends included. -/
def blankRanges : List (Nat × Nat) :=
  [(0x09, 0x0D), (0x20, 0x20), (0x85, 0x85), (0xA0, 0xA0), (0x1680, 0x1680), (0x2000, 0x200A),
    (0x2028, 0x2029), (0x202F, 0x202F), (0x205F, 0x205F), (0x3000, 0x3000)]

/-- Whether a character has the property `White_Space`. -/
def isBlank (c : Char) : Bool :=
  blankRanges.any fun range => range.1 ≤ c.toNat && c.toNat ≤ range.2

/-- Drops the blanks at the front. -/
def trimStart (s : List Char) : List Char :=
  s.dropWhile isBlank

/-- Drops the blanks at the end. -/
def trimEnd (s : List Char) : List Char :=
  (s.reverse.dropWhile isBlank).reverse

/-- Drops the blanks at both ends. -/
def trim (s : List Char) : List Char :=
  trimEnd (trimStart s)

/-- A text without the blanks at its two ends. -/
def stripped (s : String) : String :=
  String.ofList (trim s.toList)

/-- Whether a text holds blanks only. -/
def isAllBlank (s : String) : Bool :=
  s.toList.all isBlank

/-! ## What trimming keeps -/

section Blanks

variable {blanks : List Char}

theorem trim_blanks_append (h : ∀ c ∈ blanks, isBlank c = true) (s : List Char) :
    trim (blanks ++ s) = trim s := by
  rw [trim, trimStart, List.dropWhile_append_of_pos h, ← trimStart, ← trim]

theorem trimEnd_append_blanks (h : ∀ c ∈ blanks, isBlank c = true) (s : List Char) :
    trimEnd (s ++ blanks) = trimEnd s := by
  have hback : ∀ c ∈ blanks.reverse, isBlank c = true := by
    intro c hc
    exact h c (List.mem_reverse.1 hc)
  rw [trimEnd, List.reverse_append, List.dropWhile_append_of_pos hback, ← trimEnd]

theorem trim_append_blanks (h : ∀ c ∈ blanks, isBlank c = true) (s : List Char) :
    trim (s ++ blanks) = trim s := by
  rw [trim, trim, trimStart, trimStart, List.dropWhile_append]
  split
  · -- Nothing but blanks stands in front, so nothing is left of the whole.
    rename_i hnone
    have hblanks : (blanks ++ []).dropWhile isBlank = [] := List.dropWhile_append_of_pos h
    rw [List.append_nil] at hblanks
    rw [hblanks, List.isEmpty_iff.1 hnone]
  · exact trimEnd_append_blanks h _

theorem trim_blanks (h : ∀ c ∈ blanks, isBlank c = true) : trim blanks = [] := by
  rw [← List.append_nil blanks, trim_blanks_append h]
  rfl

end Blanks

theorem trimStart_of_head? {s : List Char} (h : s.head?.any isBlank = false) : trimStart s = s := by
  cases s with
  | nil => rfl
  | cons c s =>
    have hc : isBlank c = false := h
    rw [trimStart, List.dropWhile_cons_of_neg (by simp [hc])]

theorem trimEnd_of_getLast? {s : List Char} (h : s.getLast?.any isBlank = false) :
    trimEnd s = s := by
  rw [← List.head?_reverse] at h
  have hback := trimStart_of_head? h
  rw [trimStart] at hback
  rw [trimEnd, hback, List.reverse_reverse]

/-- A text that neither begins nor ends with a blank. -/
theorem trim_of_ends {s : List Char} (hfirst : s.head?.any isBlank = false)
    (hlast : s.getLast?.any isBlank = false) : trim s = s := by
  rw [trim, trimStart_of_head? hfirst, trimEnd_of_getLast? hlast]

/-- A text is its trimmed form between blanks. -/
theorem exists_eq_append_trim (s : List Char) :
    ∃ front back, (∀ c ∈ front, isBlank c = true) ∧ (∀ c ∈ back, isBlank c = true) ∧
      s = front ++ trim s ++ back := by
  have hfront : s = s.takeWhile isBlank ++ trimStart s := List.takeWhile_append_dropWhile.symm
  have hback : trimStart s
      = trim s ++ ((trimStart s).reverse.takeWhile isBlank).reverse := by
    rw [trim, trimEnd, ← List.reverse_append, List.takeWhile_append_dropWhile, List.reverse_reverse]
  refine ⟨s.takeWhile isBlank, ((trimStart s).reverse.takeWhile isBlank).reverse, ?_, ?_, ?_⟩
  · exact List.all_eq_true.1 List.all_takeWhile
  · intro c hc
    exact List.all_eq_true.1 List.all_takeWhile c (List.mem_reverse.1 hc)
  · rw [List.append_assoc, ← hback, ← hfront]

theorem trim_trim (s : List Char) : trim (trim s) = trim s := by
  obtain ⟨front, back, hfront, hback, hs⟩ := exists_eq_append_trim s
  calc trim (trim s) = trim (front ++ trim s ++ back) := by
        rw [trim_append_blanks hback, trim_blanks_append hfront]
    _ = trim s := by rw [← hs]

end Recast.Text
