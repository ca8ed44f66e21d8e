import Recast.Proofs.Scanning

/-!
# Scanning a text by places

The regions of a text can also be found by the places of its characters, in loops: what ends a
comment or literal is looked for place by place, and a scan of the whole text goes on from there. A
loop runs for a given number of rounds, and a round may ask for a character at any place. So a loop
has no result if it asks for a character behind the end of the text, or if it goes on for too long
(`loop?`).

Neither happens. `skip?_eq` says that what is skipped at a place is the region that begins there,
and `offsets?_eq` that a scan finds all assignment signs. As many rounds as there are characters and
one more are enough for each loop, because every round goes on to a later place (`EndsAfter`).
-/

set_option autoImplicit false

namespace Recast.Code

/-! ## Loops -/

/-- What a round of a loop decides: to go on with another state, or to end. -/
inductive Round (α β : Type) where
  | next (state : α)
  | done (result : β)

/-- Runs a loop for at most some number of rounds. It has no result if a round fails or if the
rounds run out. -/
def loop? {α β : Type} (round : α → Option (Round α β)) : Nat → α → Option β
  | 0, _ => none
  | fuel + 1, state =>
    match round state with
    | some (.next state) => loop? round fuel state
    | some (.done result) => some result
    | none => none

section Loops

variable {α β : Type} {round : α → Option (Round α β)} {state : α}

theorem loop?_of_next {next : α} (h : round state = some (.next next)) (fuel : Nat) :
    loop? round (fuel + 1) state = loop? round fuel next := by
  rw [loop?, h]

theorem loop?_of_done {result : β} (h : round state = some (.done result)) (fuel : Nat) :
    loop? round (fuel + 1) state = some result := by
  rw [loop?, h]

end Loops

/-! ## The rounds

Each function is one round at a place `j` of a text. `s[j]?` gives no character behind the end, and
the round fails if it needs one; only where the character is compared as an option is its absence
allowed. -/

/-- A round of the search for the end of a line. -/
def lineRound (s : List Char) (j : Nat) : Option (Round Nat Nat) :=
  if j < s.length then do
    let c ← s[j]?
    return if c = '\n' then .done j else .next (j + 1)
  else return .done j

/-- A round of the search for the end of a block comment. -/
def blockRound (s : List Char) (j : Nat) : Option (Round Nat Nat) :=
  if j + 1 < s.length then do
    let c ← s[j]?
    if c = '*' then do
      let d ← s[j + 1]?
      return if d = '/' then .done (j + 2) else .next (j + 1)
    else return .next (j + 1)
  else return .done s.length

/-- A round of the search for the end of a verbatim string. -/
def verbatimRound (s : List Char) (j : Nat) : Option (Round Nat Nat) :=
  if j < s.length then do
    let c ← s[j]?
    if c = '"' then return if s[j + 1]? = some '"' then .next (j + 2) else .done (j + 1)
    else return .next (j + 1)
  else return .done s.length

/-- A round of the search for the end of a literal. Behind a backslash that ends the text it goes on
to a place behind the end. -/
def quotedRound (quote : Char) (s : List Char) (j : Nat) : Option (Round Nat Nat) :=
  if j < s.length then do
    let c ← s[j]?
    if c = quote then return .done (j + 1)
    else return if c = '\\' then .next (j + 2) else .next (j + 1)
  else return .done s.length

/-- The place behind the comment or literal that begins at a place. Code is not skipped. -/
def skip? (s : List Char) (i : Nat) : Option (Option Nat) := do
  let c ← s[i]?
  if c = '/' ∧ s[i + 1]? = some '/' then some <$> loop? (lineRound s) (s.length + 1) (i + 2)
  else if c = '/' ∧ s[i + 1]? = some '*' then
    some <$> loop? (blockRound s) (s.length + 1) (i + 2)
  else if c = '@' ∧ s[i + 1]? = some '"' then
    some <$> loop? (verbatimRound s) (s.length + 1) (i + 2)
  else if c = '"' ∨ c = '\'' then some <$> loop? (quotedRound c s) (s.length + 1) (i + 1)
  else return none

/-! ## The end of a region, place by place -/

theorem getElem?_append_length (front : List Char) (c : Char) (t : List Char) :
    (front ++ c :: t)[front.length]? = some c := by
  rw [List.getElem?_append_right (Nat.le_refl _), Nat.sub_self]
  rfl

theorem getElem?_append_succ (front : List Char) (c : Char) (t : List Char) :
    (front ++ c :: t)[front.length + 1]? = t.head? := by
  rw [List.getElem?_append_right (by omega), Nat.add_sub_cancel_left, List.getElem?_cons_succ,
    List.head?_eq_getElem?]

/-- From its beginning on, a loop over a text ends behind `n` of its characters, whatever stands in
front of the text. It needs at most one round for each character and one more. -/
def EndsAfter (round : List Char → Nat → Option (Round Nat Nat)) (t : List Char) (n : Nat) : Prop :=
  ∀ front fuel, t.length < fuel →
    loop? (round (front ++ t)) fuel front.length = some (front.length + n)

section EndsAfter

variable {round : List Char → Nat → Option (Round Nat Nat)} {t : List Char} {n : Nat}

theorem EndsAfter.of_done
    (h : ∀ front, round (front ++ t) front.length = some (.done (front.length + n))) :
    EndsAfter round t n := by
  intro front fuel hfuel
  obtain ⟨fuel, rfl⟩ : ∃ m, fuel = m + 1 := ⟨fuel - 1, by omega⟩
  exact loop?_of_done (h front) fuel

/-- A round that goes on behind some characters, where the loop ends later. -/
theorem EndsAfter.of_next {passed : List Char} (hpassed : passed ≠ [])
    (h : ∀ front, round (front ++ (passed ++ t)) front.length
      = some (.next (front.length + passed.length)))
    (hlater : EndsAfter round t n) : EndsAfter round (passed ++ t) (n + passed.length) := by
  have hpos := List.length_pos_of_ne_nil hpassed
  intro front fuel hfuel
  rw [List.length_append] at hfuel
  obtain ⟨fuel, rfl⟩ : ∃ m, fuel = m + 1 := ⟨fuel - 1, by omega⟩
  have hrest := hlater (front ++ passed) fuel (by omega)
  rw [List.append_assoc, List.length_append] at hrest
  rw [loop?_of_next (h front), hrest, Nat.add_assoc, Nat.add_comm passed.length]

end EndsAfter

theorem endsAfter_lineRound (t : List Char) : EndsAfter lineRound t (lineEnd t).1.length := by
  induction t with
  | nil =>
    refine .of_done fun front => ?_
    simp [lineRound, lineEnd]
  | cons c t ih =>
    by_cases hc : c = '\n'
    · -- The line feed is not part of the comment.
      refine .of_done fun front => ?_
      simp [lineRound, lineEnd, hc]
    · have htext : (lineEnd (c :: t)).1.length = (lineEnd t).1.length + [c].length := by
        simp [lineEnd, hc]
      rw [htext]
      refine .of_next (List.cons_ne_nil c []) (fun front => ?_) ih
      simp [lineRound, hc]

theorem endsAfter_blockRound (t : List Char) : EndsAfter blockRound t (blockEnd t).1.length := by
  fun_induction blockEnd t with
  | case1 =>
    refine .of_done fun front => ?_
    simp [blockRound]
  | case2 t =>
    refine .of_done fun front => ?_
    simp [blockRound]
  | case3 c t hopen ended ih =>
    cases t with
    | nil =>
      -- A single character cannot close the comment, which ends with the text.
      refine .of_done fun front => ?_
      simp [blockRound, ended, blockEnd]
    | cons d t =>
      refine .of_next (List.cons_ne_nil c []) (fun front => ?_) ih
      have hd : c = '*' → d ≠ '/' := by
        rintro hc rfl
        exact hopen t hc rfl
      -- Only behind an asterisk is the next character asked for, and there it is no slash.
      by_cases hc : c = '*'
      · simp [blockRound, hc, hd hc]
      · simp [blockRound, hc]

theorem endsAfter_verbatimRound (t : List Char) :
    EndsAfter verbatimRound t (verbatimEnd t).1.length := by
  fun_induction verbatimEnd t with
  | case1 =>
    refine .of_done fun front => ?_
    simp [verbatimRound]
  | case2 t ended ih =>
    refine .of_next (List.cons_ne_nil '"' ['"']) (fun front => ?_) ih
    simp [verbatimRound]
  | case3 t hsingle =>
    -- The quote is not doubled, so it closes the string.
    refine .of_done fun front => ?_
    have hquote : t.head? ≠ some '"' := by
      intro hhead
      exact hsingle t.tail (List.eq_cons_of_mem_head? hhead)
    simp [verbatimRound, getElem?_append_succ, hquote]
  | case4 c t _ hother ended ih =>
    have hc : c ≠ '"' := hother
    refine .of_next (List.cons_ne_nil c []) (fun front => ?_) ih
    simp [verbatimRound, hc]

theorem endsAfter_quotedRound {quote : Char} (hquote : quote ≠ '\\') (t : List Char) :
    EndsAfter (quotedRound quote) t (quotedEnd quote t).1.length := by
  fun_induction quotedEnd quote t with
  | case1 =>
    refine .of_done fun front => ?_
    simp [quotedRound]
  | case2 =>
    -- The backslash takes a character that is not there, and one more round finds the end passed.
    intro front fuel hfuel
    obtain ⟨fuel, rfl⟩ : ∃ m, fuel = m + 2 := ⟨fuel - 2, by simp at hfuel; omega⟩
    have hfirst : quotedRound quote (front ++ ['\\']) front.length
        = some (.next (front.length + 2)) := by
      simp [quotedRound, hquote.symm]
    have hlast : quotedRound quote (front ++ ['\\']) (front.length + 2)
        = some (.done (front.length + 1)) := by
      simp [quotedRound]
    rw [loop?_of_next hfirst, loop?_of_done hlast]
    rfl
  | case3 c t ended ih =>
    refine .of_next (List.cons_ne_nil '\\' [c]) (fun front => ?_) ih
    simp [quotedRound, hquote.symm]
  | case4 t _ _ =>
    refine .of_done fun front => ?_
    simp [quotedRound]
  | case5 c t hend hescape hother ended ih =>
    have hc : c ≠ '\\' := by
      intro hc
      cases t with
      | nil => exact hend hc rfl
      | cons d t => exact hescape d t hc rfl
    refine .of_next (List.cons_ne_nil c []) (fun front => ?_) ih
    simp [quotedRound, hother, hc]

/-! ## Skipping a region -/

/-- How many characters of a region are skipped; code is not. -/
def Region.skipped? : Region → Option Nat
  | .code _ => none
  | r => some r.text.length

theorem Region.skipped?_eq {r : Region} (h : ∀ d, r ≠ .code d) :
    r.skipped? = some r.text.length := by
  cases r with
  | code d => exact absurd rfl (h d)
  | lineComment text | blockComment text | verbatim text | quoted text => rfl

theorem Region.length_of_skipped? {r : Region} {n : Nat} (h : r.skipped? = some n) :
    r.text.length = n := by
  cases r with
  | code d => cases h
  | lineComment text | blockComment text | verbatim text | quoted text => exact Option.some.inj h

/-- A loop that begins behind the opening mark of a region. -/
theorem EndsAfter.loop?_eq {round : List Char → Nat → Option (Round Nat Nat)} {t : List Char}
    {n : Nat} (h : EndsAfter round t n) (front mark : List Char) :
    loop? (round (front ++ (mark ++ t))) ((front ++ (mark ++ t)).length + 1)
        (front.length + mark.length)
      = some (front.length + (n + mark.length)) := by
  have hfuel : t.length < (front ++ (mark ++ t)).length + 1 := by
    rw [List.length_append, List.length_append]
    omega
  have hmark : (front ++ mark).length = front.length + mark.length := List.length_append
  have hloop := h (front ++ mark) _ hfuel
  rw [List.append_assoc, hmark] at hloop
  rw [hloop, Nat.add_assoc, Nat.add_comm n]

/-- What is skipped at a place is the comment or literal that begins there. -/
theorem skip?_eq (front : List Char) (c : Char) (t : List Char) :
    skip? (front ++ c :: t) front.length
      = some ((region c t).1.skipped?.map (front.length + ·)) := by
  rw [skip?, getElem?_append_length, getElem?_append_succ]
  fun_cases region c t with
  | case1 t =>
    have hloop := (endsAfter_lineRound t).loop?_eq front ['/', '/']
    simpa [Region.skipped?, Region.text] using hloop
  | case2 t =>
    have hloop := (endsAfter_blockRound t).loop?_eq front ['/', '*']
    simpa [Region.skipped?, Region.text] using hloop
  | case3 t =>
    have hloop := (endsAfter_verbatimRound t).loop?_eq front ['@', '"']
    simpa [Region.skipped?, Region.text] using hloop
  | case4 t =>
    have hloop := (endsAfter_quotedRound (by decide : '"' ≠ '\\') t).loop?_eq front ['"']
    simpa [Region.skipped?, Region.text] using hloop
  | case5 t =>
    have hloop := (endsAfter_quotedRound (by decide : '\'' ≠ '\\') t).loop?_eq front ['\'']
    simpa [Region.skipped?, Region.text] using hloop
  | case6 c t hline hblock hverbatim hdouble hsingle =>
    -- No mark is at the place, so none of the tests is passed.
    have hlines : ¬ (c = '/' ∧ t.head? = some '/') := by
      rintro ⟨hc, hhead⟩
      exact hline t.tail hc (List.eq_cons_of_mem_head? hhead)
    have hblocks : ¬ (c = '/' ∧ t.head? = some '*') := by
      rintro ⟨hc, hhead⟩
      exact hblock t.tail hc (List.eq_cons_of_mem_head? hhead)
    have hverbatims : ¬ (c = '@' ∧ t.head? = some '"') := by
      rintro ⟨hc, hhead⟩
      exact hverbatim t.tail hc (List.eq_cons_of_mem_head? hhead)
    have hquotes : ¬ (c = '"' ∨ c = '\'') := by
      rintro (hc | hc)
      · exact hdouble hc
      · exact hsingle hc
    simp [hlines, hblocks, hverbatims, hquotes, Region.skipped?]

/-- What is skipped ends behind the place and not behind the end of the text. -/
theorem skip?_bounds {s : List Char} {i : Nat} (hi : i < s.length) :
    ∃ found, skip? s i = some found ∧ ∀ p ∈ found, i < p ∧ p ≤ s.length := by
  obtain ⟨front, c, t, rfl, rfl⟩ : ∃ front c t, s = front ++ c :: t ∧ i = front.length := by
    refine ⟨s.take i, s[i], s.drop (i + 1), ?_, ?_⟩
    · rw [← List.drop_eq_getElem_cons hi, List.take_append_drop]
    · rw [List.length_take_of_le (Nat.le_of_lt hi)]
  refine ⟨_, skip?_eq front c t, ?_⟩
  -- A region takes at least one character, and no more than there are.
  intro p hp
  obtain ⟨n, hn, rfl⟩ := Option.map_eq_some_iff.1 hp
  have htext := congrArg List.length (region_text_append c t)
  have hlt := region_length_lt c t
  have hlength := Region.length_of_skipped? hn
  rw [List.length_append] at htext
  rw [List.length_append]
  omega

/-! ## All assignment signs -/

/-- The number of bytes of a text. -/
def width : List Char → Nat
  | [] => 0
  | c :: s => c.utf8Size + width s

/-- The number of bytes in front of a place. -/
def byteOffset? (s : List Char) (i : Nat) : Option Nat :=
  if i ≤ s.length then some (width (s.take i)) else none

/-- The character in front of a place; none at the beginning of the text. -/
def charBefore? (s : List Char) (i : Nat) : Option (Option Char) :=
  if 0 < i then some <$> s[i - 1]? else some none

/-- Whether the character at a place is an assignment sign, if it is code. -/
def isSignAt? (s : List Char) (i : Nat) : Option Bool := do
  let c ← s[i]?
  if c = '=' then return isAssignmentBetween (← charBefore? s i) s[i + 1]?
  else return false

/-- A round of the search for assignment signs at a place, with the signs that have been found. -/
def signRound (s : List Char) : Nat × List Nat → Option (Round (Nat × List Nat) (List Nat))
  | (i, found) =>
    if i < s.length then do
      match ← skip? s i with
      | some p => return .next (p, found)
      | none =>
        if ← isSignAt? s i then return .next (i + 1, found ++ [← byteOffset? s i])
        else return .next (i + 1, found)
    else return .done found

/-- The byte offsets of the assignment signs of a text. -/
def offsets? (s : List Char) : Option (List Nat) :=
  loop? (signRound s) (s.length + 1) (0, [])

theorem charBefore?_eq (front t : List Char) :
    charBefore? (front ++ t) front.length = some front.getLast? := by
  cases front with
  | nil => rfl
  | cons c front =>
    have hlast : (c :: front ++ t)[(c :: front).length - 1]? = (c :: front).getLast? := by
      rw [List.getElem?_append_left (by simp), List.getLast?_eq_getElem?]
    rw [charBefore?, if_pos (by simp), hlast]
    rw [List.getLast?_eq_some_getLast (List.cons_ne_nil c front)]
    rfl

theorem isSignAt?_eq (front : List Char) (c : Char) (t : List Char) :
    isSignAt? (front ++ c :: t) front.length
      = some (c = '=' && isAssignmentBetween front.getLast? t.head?) := by
  rw [isSignAt?, getElem?_append_length, getElem?_append_succ, charBefore?_eq]
  by_cases hc : c = '='
  · simp [hc]
  · simp [hc]

/-- A character of code is a region of its own. -/
theorem region_eq_of_code {c d : Char} {t : List Char} (h : (region c t).1 = .code d) :
    region c t = (.code c, t) := by
  revert h
  fun_cases region c t with
  | case1 | case2 | case3 | case4 | case5 => exact fun h => by cases h
  | case6 => exact fun _ => rfl

/-- A round passes over the region at its place, and adds the sign that stands there. -/
theorem signRound_eq (front : List Char) (c : Char) (t : List Char) (found : List Nat) :
    signRound (front ++ c :: t) (front.length, found)
      = some (.next (front.length + (region c t).1.text.length, found ++
          if (region c t).1 = .code '=' && isAssignmentBetween front.getLast? (region c t).2.head?
          then [width front] else [])) := by
  have hi : front.length < (front ++ c :: t).length := by simp
  rw [signRound, if_pos hi, skip?_eq, isSignAt?_eq]
  by_cases hcode : ∃ d, (region c t).1 = .code d
  · -- Code is not skipped, and the character is looked at.
    obtain ⟨d, hcode⟩ := hcode
    have hoffset : byteOffset? (front ++ c :: t) front.length = some (width front) := by
      rw [byteOffset?, if_pos (Nat.le_of_lt hi), List.take_left]
    rw [region_eq_of_code hcode, hoffset]
    by_cases hsign : (c = '=' && isAssignmentBetween front.getLast? t.head?) = true
    · simp [Region.skipped?, Region.text, hsign]
    · have hsign' : (c = '=' && isAssignmentBetween front.getLast? t.head?) = false := by
        simpa using hsign
      simp [Region.skipped?, Region.text, hsign']
  · -- A comment or literal is skipped as a whole, and no sign is in it.
    have hother : ∀ d, (region c t).1 ≠ .code d := fun d h => hcode ⟨d, h⟩
    simp [Region.skipped?_eq hother, hother '=']

/-- From any region of a text on, the search adds the offsets of all signs that follow. -/
theorem loop?_signRound (front t : List Char) (found : List Nat) {fuel : Nat}
    (hfuel : t.length < fuel) :
    loop? (signRound (front ++ t)) fuel (front.length, found)
      = some (found ++ (assignmentsFrom front.getLast? front.length (regions t)).map fun i =>
          width ((front ++ t).take i)) := by
  induction hlength : t.length using Nat.strongRecOn generalizing front t found fuel with
  | _ n ih =>
    obtain ⟨fuel, rfl⟩ : ∃ m, fuel = m + 1 := ⟨fuel - 1, by omega⟩
    cases t with
    | nil =>
      have hround : signRound (front ++ []) (front.length, found) = some (.done found) := by
        simp [signRound]
      rw [loop?_of_done hround]
      simp [assignmentsFrom]
    | cons c t =>
      have hlt := region_length_lt c t
      have htext := region_text_append c t
      -- The text of the region is passed over, and its last character stands in front of the rest.
      have hlast : (front ++ (region c t).1.text).getLast? = (region c t).1.text.getLast? := by
        have hhead := region_text_head? c t
        cases hregion : (region c t).1.text with
        | nil => simp [hregion] at hhead
        | cons d text => simp [List.getLast?_append, List.getLast?_cons]
      have hrest := ih _ (hlength ▸ hlt) (front ++ (region c t).1.text) (region c t).2
        (found ++ if (region c t).1 = .code '='
          && isAssignmentBetween front.getLast? (region c t).2.head? then [width front] else [])
        (by omega : _ < fuel) rfl
      rw [List.append_assoc, htext, List.length_append, hlast] at hrest
      rw [loop?_of_next (signRound_eq front c t found), hrest, regions_cons, assignmentsFrom,
        regions_head?]
      split <;> simp

/-- The search finds the offsets of exactly the assignment signs. -/
theorem offsets?_eq (s : List Char) :
    offsets? s = some ((assignments s).map fun i => width (s.take i)) :=
  loop?_signRound [] s [] (Nat.lt_succ_self s.length)

-- The letter takes two bytes, and the literal ends with the text, behind a backslash.
example : offsets? "ü = '=\\".toList = some [3] := by decide

end Recast.Code
