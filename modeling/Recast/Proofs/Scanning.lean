import Mathlib.Data.List.Basic
import Recast.Code.Assignment

/-!
# Scanning a text character by character

The regions of a text are found by looking ahead for the end of each. The same assignment signs are
found by a scan that reads one character at a time and remembers only where it stands (`Mode`): the
modes in which the next character is code, and those inside of a comment or literal. A character
that may open or close a region together with the next one has a mode of its own.

`assignments_eq_signsFrom` says that both ways find the same signs. A scan can be stopped and taken
up again anywhere, which the search for regions cannot, so statements about parts of a text are
proved of scans (`signsFrom_append`, `mem_signsFrom_iff`).
-/

set_option autoImplicit false

namespace Recast.Code

/-! ## One region after the other -/

theorem lineEnd_append (s : List Char) : (lineEnd s).1 ++ (lineEnd s).2 = s :=
  List.takeWhile_append_dropWhile

theorem blockEnd_append (s : List Char) : (blockEnd s).1 ++ (blockEnd s).2 = s := by
  fun_induction blockEnd s with
  | case1 => rfl
  | case2 s => rfl
  | case3 c s _ ended ih => rw [List.cons_append, ih]

theorem verbatimEnd_append (s : List Char) : (verbatimEnd s).1 ++ (verbatimEnd s).2 = s := by
  fun_induction verbatimEnd s with
  | case1 => rfl
  | case2 s ended ih => rw [List.cons_append, List.cons_append, ih]
  | case3 s _ => rfl
  | case4 c s _ _ ended ih => rw [List.cons_append, ih]

theorem quotedEnd_append (quote : Char) (s : List Char) :
    (quotedEnd quote s).1 ++ (quotedEnd quote s).2 = s := by
  fun_induction quotedEnd quote s with
  | case1 => rfl
  | case2 => rfl
  | case3 c s ended ih => rw [List.cons_append, List.cons_append, ih]
  | case4 s _ _ => rfl
  | case5 c s _ _ _ ended ih => rw [List.cons_append, ih]

/-- The text of a region and what follows it are the text from its first character on. -/
theorem region_text_append (c : Char) (s : List Char) :
    (region c s).1.text ++ (region c s).2 = c :: s := by
  fun_cases region c s with
  | case1 s => simp [Region.text, lineEnd_append]
  | case2 s => simp [Region.text, blockEnd_append]
  | case3 s => simp [Region.text, verbatimEnd_append]
  | case4 s => simp [Region.text, quotedEnd_append]
  | case5 s => simp [Region.text, quotedEnd_append]
  | case6 c s => rfl

theorem region_text_head? (c : Char) (s : List Char) : (region c s).1.text.head? = some c := by
  fun_cases region c s <;> rfl

/-- A region takes at least one character. -/
theorem region_length_lt (c : Char) (s : List Char) : (region c s).2.length < (c :: s).length := by
  have hhead := region_text_head? c s
  have htext := congrArg List.length (region_text_append c s)
  rw [List.length_append] at htext
  cases hregion : (region c s).1.text with
  | nil => simp [hregion] at hhead
  | cons d text =>
    rw [hregion, List.length_cons] at htext
    omega

/-- As many steps as there are characters are enough, and more find nothing more. -/
theorem regionsWithin_eq {fuel : Nat} {s : List Char} (h : s.length ≤ fuel) {more : Nat}
    (hmore : s.length ≤ more) : regionsWithin fuel s = regionsWithin more s := by
  induction fuel generalizing s more with
  | zero =>
    obtain rfl : s = [] := List.eq_nil_of_length_eq_zero (by omega)
    cases more <;> rfl
  | succ fuel ih =>
    cases s with
    | nil => cases more <;> rfl
    | cons c s =>
      have hlt := region_length_lt c s
      simp only [List.length_cons] at h hmore hlt
      obtain ⟨more, rfl⟩ : ∃ n, more = n + 1 := ⟨more - 1, by omega⟩
      rw [regionsWithin, regionsWithin]
      rw [ih (by omega) (by omega : _ ≤ more)]

@[simp] theorem regions_nil : regions [] = [] :=
  rfl

theorem regions_cons (c : Char) (s : List Char) :
    regions (c :: s) = (region c s).1 :: regions (region c s).2 := by
  have hlt := region_length_lt c s
  rw [List.length_cons] at hlt
  rw [regions, List.length_cons, regionsWithin]
  rw [regionsWithin_eq (by omega : _ ≤ s.length) (Nat.le_refl _)]
  rfl

/-- The first region of a text begins with its first character. -/
theorem regions_head? (s : List Char) :
    ((regions s).head?.map Region.text).bind List.head? = s.head? := by
  cases s with
  | nil => rfl
  | cons c s => simp [regions_cons, region_text_head?]

/-! ## Modes of a scan -/

/-- The two quotes that open and close a literal. -/
inductive Quote where
  | single
  | double
deriving DecidableEq, Repr

/-- The character of a quote. -/
def Quote.mark : Quote → Char
  | .single => '\''
  | .double => '"'

/-- Where a scan stands between two characters. -/
inductive Mode where
  /-- In code. -/
  | plain
  /-- In code, behind a slash that may open a comment. -/
  | slash
  /-- In code, behind an at sign that may open a verbatim string. -/
  | atSign
  | lineComment
  | blockComment
  /-- In a block comment, behind an asterisk that may close it. -/
  | asterisk
  | verbatim
  /-- Behind a quote that closes a verbatim string, unless another one follows. -/
  | verbatimQuote
  | quoted (quote : Quote)
  /-- In a literal, behind a backslash that takes the next character. -/
  | escape (quote : Quote)
deriving DecidableEq, Repr

namespace Mode

/-- Whether an equals sign that comes next is code. -/
def isCode : Mode → Bool
  | .plain => true
  | .slash => true
  | .atSign => true
  | .verbatimQuote => true
  | _ => false

/-- The mode behind a character of code. -/
def behindCode : Char → Mode
  | '/' => .slash
  | '@' => .atSign
  | '"' => .quoted .double
  | '\'' => .quoted .single
  | _ => .plain

/-- The mode behind one more character. -/
def after (c : Char) : Mode → Mode
  | .plain => behindCode c
  | .slash => if c = '/' then .lineComment else if c = '*' then .blockComment else behindCode c
  | .atSign => if c = '"' then .verbatim else behindCode c
  | .lineComment => if c = '\n' then .plain else .lineComment
  | .blockComment => if c = '*' then .asterisk else .blockComment
  | .asterisk => if c = '/' then .plain else if c = '*' then .asterisk else .blockComment
  | .verbatim => if c = '"' then .verbatimQuote else .verbatim
  | .verbatimQuote => if c = '"' then .verbatim else behindCode c
  | .quoted quote =>
    if c = '\\' then .escape quote else if c = quote.mark then .plain else .quoted quote
  | .escape quote => .quoted quote

/-- The mode behind a text. -/
def afterAll (mode : Mode) (s : List Char) : Mode :=
  s.foldl (fun mode c => mode.after c) mode

end Mode

/-- The places of the assignment signs of a text that is scanned from some mode on; `at_` is the
place of its first character and `before` the character in front of it. -/
def signsFrom (mode : Mode) (before : Option Char) (at_ : Nat) : List Char → List Nat
  | [] => []
  | c :: s =>
    let later := signsFrom (mode.after c) (some c) (at_ + 1) s
    if mode.isCode && c = '=' && isAssignmentBetween before s.head? then at_ :: later else later

/-- A character that is no assignment sign is passed over. -/
theorem signsFrom_cons_of_not {mode : Mode} {c : Char} (h : mode.isCode = false ∨ c ≠ '=')
    (before : Option Char) (at_ : Nat) (s : List Char) :
    signsFrom mode before at_ (c :: s) = signsFrom (mode.after c) (some c) (at_ + 1) s := by
  rw [signsFrom, if_neg]
  rcases h with h | h <;> simp [h]

/-- Two modes that the first character brings together find the same signs. -/
theorem signsFrom_congr {mode other : Mode} {s : List Char}
    (h : ∀ c ∈ s.head?, (mode.isCode = other.isCode ∨ c ≠ '=') ∧ mode.after c = other.after c)
    (before : Option Char) (at_ : Nat) :
    signsFrom mode before at_ s = signsFrom other before at_ s := by
  cases s with
  | nil => rfl
  | cons c s =>
    obtain ⟨hcode | hc, hafter⟩ := h c rfl
    · rw [signsFrom, signsFrom, hcode, hafter]
    · rw [signsFrom_cons_of_not (.inr hc), signsFrom_cons_of_not (.inr hc), hafter]

/-! ## Scanning through a region -/

/-- From some mode on, a scan passes over `text` and goes on with `rest` in code. -/
def Skips (mode : Mode) (text rest : List Char) : Prop :=
  ∀ before at_, signsFrom mode before at_ (text ++ rest)
    = signsFrom .plain (text.getLast?.or before) (at_ + text.length) rest

theorem Skips.nil {mode : Mode} {rest : List Char}
    (h : ∀ c ∈ rest.head?,
      (mode.isCode = true ∨ c ≠ '=') ∧ mode.after c = Mode.plain.after c) :
    Skips mode [] rest :=
  signsFrom_congr h

/-- The last character of a text with one more in front. -/
theorem getLast?_cons_or (c : Char) (text : List Char) (before : Option Char) :
    (c :: text).getLast?.or before = text.getLast?.or (some c) := by
  cases hlast : text.getLast? <;> simp [List.getLast?_cons, hlast]

theorem Skips.cons {mode : Mode} {c : Char} {text rest : List Char}
    (hc : mode.isCode = false ∨ c ≠ '=') (h : Skips (mode.after c) text rest) :
    Skips mode (c :: text) rest := by
  intro before at_
  rw [List.cons_append, signsFrom_cons_of_not hc, h, getLast?_cons_or, List.length_cons,
    Nat.add_right_comm, Nat.add_assoc]

theorem skips_lineEnd (s : List Char) : Skips .lineComment (lineEnd s).1 (lineEnd s).2 := by
  induction s with
  | nil => exact .nil (by simp [lineEnd])
  | cons c s ih =>
    by_cases hc : c = '\n'
    · subst hc
      exact .nil (by simp [lineEnd, Mode.after, Mode.behindCode])
    · have htext : lineEnd (c :: s) = (c :: (lineEnd s).1, (lineEnd s).2) := by
        simp [lineEnd, hc]
      rw [htext]
      refine .cons (.inl rfl) ?_
      rw [Mode.after, if_neg hc]
      exact ih

theorem skips_blockEnd (s : List Char) : Skips .blockComment (blockEnd s).1 (blockEnd s).2 := by
  fun_induction blockEnd s with
  | case1 => exact .nil (by simp)
  | case2 s =>
    refine .cons (.inl rfl) (.cons (.inl rfl) (.nil ?_))
    intro c _
    exact ⟨.inl rfl, rfl⟩
  | case3 c s hopen ended ih =>
    refine .cons (.inl rfl) ?_
    by_cases hc : c = '*'
    · -- The asterisk does not close the comment, so it can be forgotten.
      intro before at_
      rw [← ih before at_, blockEnd_append]
      refine signsFrom_congr ?_ before at_
      intro d hd
      have hslash : d ≠ '/' := by
        rintro rfl
        exact hopen _ hc (List.eq_cons_of_mem_head? hd)
      simp [hc, Mode.after, Mode.isCode, hslash]
    · rw [Mode.after, if_neg hc]
      exact ih

theorem skips_verbatimEnd (s : List Char) :
    Skips .verbatim (verbatimEnd s).1 (verbatimEnd s).2 := by
  fun_induction verbatimEnd s with
  | case1 => exact .nil (by simp)
  | case2 s ended ih => exact .cons (.inl rfl) (.cons (.inr (by decide)) ih)
  | case3 s hsingle =>
    refine .cons (.inl rfl) (.nil ?_)
    intro c hc
    -- The quote is not doubled, so it closes the string.
    have hquote : c ≠ '"' := by
      rintro rfl
      exact hsingle _ (List.eq_cons_of_mem_head? hc)
    simp [Mode.after, Mode.isCode, hquote]
  | case4 c s _ hother ended ih =>
    refine .cons (.inl rfl) ?_
    rw [Mode.after, if_neg hother]
    exact ih

theorem skips_quotedEnd (quote : Quote) (s : List Char) :
    Skips (.quoted quote) (quotedEnd quote.mark s).1 (quotedEnd quote.mark s).2 := by
  fun_induction quotedEnd quote.mark s with
  | case1 => exact .nil (by simp)
  | case2 => exact .cons (.inl rfl) (.nil (by simp))
  | case3 c s ended ih => exact .cons (.inl rfl) (.cons (.inl rfl) ih)
  | case4 s _ _ =>
    have hmark : quote.mark ≠ '\\' := by cases quote <;> decide
    refine .cons (.inl rfl) ?_
    rw [Mode.after, if_neg hmark, if_pos rfl]
    exact .nil fun c _ => ⟨.inl rfl, rfl⟩
  | case5 c s hend hescape hother ended ih =>
    have hc : c ≠ '\\' := by
      intro hc
      cases s with
      | nil => exact hend hc rfl
      | cons d s => exact hescape d s hc rfl
    refine .cons (.inl rfl) ?_
    rw [Mode.after, if_neg hc, if_neg hother]
    exact ih

/-- A text begins with a comment or literal, which is passed over, or with a character of code. -/
theorem region_cases (c : Char) (s : List Char) :
    ((region c s).1 ≠ .code '=' ∧ Skips .plain (region c s).1.text (region c s).2) ∨
      (region c s = (.code c, s) ∧ Skips (.behindCode c) [] s) := by
  fun_cases region c s with
  | case1 s =>
    exact .inl ⟨by simp, .cons (.inr (by decide)) (.cons (.inr (by decide)) (skips_lineEnd s))⟩
  | case2 s =>
    exact .inl ⟨by simp, .cons (.inr (by decide)) (.cons (.inr (by decide)) (skips_blockEnd s))⟩
  | case3 s =>
    exact .inl ⟨by simp, .cons (.inr (by decide)) (.cons (.inr (by decide)) (skips_verbatimEnd s))⟩
  | case4 s => exact .inl ⟨by simp, .cons (.inr (by decide)) (skips_quotedEnd .double s)⟩
  | case5 s => exact .inl ⟨by simp, .cons (.inr (by decide)) (skips_quotedEnd .single s)⟩
  | case6 c s hline hblock hverbatim hdouble hsingle =>
    refine .inr ⟨rfl, .nil ?_⟩
    intro d hd
    have hs := List.eq_cons_of_mem_head? hd
    by_cases hslash : c = '/'
    · have hd1 : d ≠ '/' := fun h => hline s.tail hslash (h ▸ hs)
      have hd2 : d ≠ '*' := fun h => hblock s.tail hslash (h ▸ hs)
      simp [hslash, Mode.behindCode, Mode.after, Mode.isCode, hd1, hd2]
    · by_cases hat : c = '@'
      · have hd1 : d ≠ '"' := fun h => hverbatim s.tail hat (h ▸ hs)
        simp [hat, Mode.behindCode, Mode.after, Mode.isCode, hd1]
      · have hplain : Mode.behindCode c = .plain := by
          rw [Mode.behindCode.eq_def]
          split
          · exact absurd rfl hslash
          · exact absurd rfl hat
          · exact absurd rfl hdouble
          · exact absurd rfl hsingle
          · rfl
        simp [hplain, Mode.isCode]

/-- The regions of a text and a scan of it find the same signs. -/
theorem assignmentsFrom_regions (before : Option Char) (at_ : Nat) (s : List Char) :
    assignmentsFrom before at_ (regions s) = signsFrom .plain before at_ s := by
  induction hlength : s.length using Nat.strongRecOn generalizing before at_ s with
  | _ n ih =>
    cases s with
    | nil => rfl
    | cons c s =>
      have hlt := region_length_lt c s
      have hlater := ih _ (hlength ▸ hlt) (region c s).1.text.getLast?
        (at_ + (region c s).1.text.length) (region c s).2 rfl
      rw [regions_cons, assignmentsFrom, hlater, regions_head?]
      rcases region_cases c s with ⟨hcode, hskips⟩ | ⟨hregion, hskips⟩
      · -- The last character of a region that is not empty stands in front of the rest.
        have hlast : (region c s).1.text.getLast?.or before = (region c s).1.text.getLast? := by
          have hhead := region_text_head? c s
          cases htext : (region c s).1.text with
          | nil => simp [htext] at hhead
          | cons d text => simp [List.getLast?_cons]
        have hscan := hskips before at_
        rw [region_text_append, hlast] at hscan
        rw [if_neg (by simp [hcode]), hscan]
      · have hscan := hskips (some c) (at_ + 1)
        rw [hregion, signsFrom]
        simp only [List.nil_append, List.getLast?_nil, Option.none_or, List.length_nil] at hscan
        have hafter : Mode.plain.after c = .behindCode c := rfl
        simp [Region.text, Mode.isCode, hafter, hscan]

theorem assignments_eq_signsFrom (s : List Char) : assignments s = signsFrom .plain none 0 s :=
  assignmentsFrom_regions none 0 s

/-! ## Parts of a text -/

@[simp] theorem Mode.afterAll_nil (mode : Mode) : mode.afterAll [] = mode :=
  rfl

@[simp] theorem Mode.afterAll_cons (mode : Mode) (c : Char) (s : List Char) :
    mode.afterAll (c :: s) = (mode.after c).afterAll s :=
  rfl

theorem Mode.afterAll_append (mode : Mode) (s t : List Char) :
    mode.afterAll (s ++ t) = (mode.afterAll s).afterAll t :=
  List.foldl_append

/-- Behind an equals sign of code nothing can be opened by what comes next. -/
theorem Mode.after_equals {mode : Mode} (h : mode.isCode = true) : mode.after '=' = .plain := by
  cases mode with
  | plain | slash | atSign | verbatimQuote => rfl
  | lineComment | blockComment | asterisk | verbatim | quoted | escape => cases h

theorem isAssignmentBetween_none_right (before : Option Char) {after : Option Char}
    (h : after.any operatorEnds.contains = false) :
    isAssignmentBetween before after = isAssignmentBetween before none := by
  simp [isAssignmentBetween, h]

theorem isAssignmentBetween_none_left {before : Option Char} (after : Option Char)
    (h : before.any operatorStarts.contains = false) :
    isAssignmentBetween before after = isAssignmentBetween none after := by
  simp [isAssignmentBetween, h]

/-- A scan can be taken up again behind any part of a text that does not end in the middle of an
operator. -/
theorem signsFrom_append {s t : List Char}
    (h : s.getLast? = some '=' → t.head?.any operatorEnds.contains = false) (mode : Mode)
    (before : Option Char) (at_ : Nat) :
    signsFrom mode before at_ (s ++ t)
      = signsFrom mode before at_ s
        ++ signsFrom (mode.afterAll s) (s.getLast?.or before) (at_ + s.length) t := by
  induction s generalizing mode before at_ with
  | nil => rfl
  | cons c s ih =>
    have hlater : s.getLast? = some '=' → t.head?.any operatorEnds.contains = false := by
      intro hlast
      exact h (by rw [List.getLast?_cons, hlast]; rfl)
    -- Only for the last character of the part does it matter what follows the part.
    have htest : (mode.isCode && c = '=' && isAssignmentBetween before (s ++ t).head?)
        = (mode.isCode && c = '=' && isAssignmentBetween before s.head?) := by
      cases s with
      | cons d s => rfl
      | nil =>
        by_cases hc : c = '='
        · rw [List.nil_append, isAssignmentBetween_none_right before (h (by rw [hc]; rfl))]
          rfl
        · simp [hc]
    rw [List.cons_append, signsFrom, signsFrom, htest, ih hlater, getLast?_cons_or,
      List.length_cons, Mode.afterAll_cons, Nat.add_right_comm]
    split <;> rfl

/-- The signs of a text that is placed further behind. -/
theorem signsFrom_add (mode : Mode) (before : Option Char) (at_ shift : Nat) (s : List Char) :
    signsFrom mode before (at_ + shift) s = (signsFrom mode before at_ s).map (· + shift) := by
  induction s generalizing mode before at_ with
  | nil => rfl
  | cons c s ih =>
    rw [signsFrom, signsFrom, Nat.add_right_comm, ih]
    split <;> rfl

theorem signsFrom_none_before {before : Option Char} {s : List Char}
    (h : before.any operatorStarts.contains = false ∨ s.head? ≠ some '=') (mode : Mode)
    (at_ : Nat) : signsFrom mode before at_ s = signsFrom mode none at_ s := by
  cases s with
  | nil => rfl
  | cons c s =>
    rcases h with h | h
    · rw [signsFrom, signsFrom, isAssignmentBetween_none_left _ h]
    · have hc : c ≠ '=' := fun hc => h (by rw [hc]; rfl)
      rw [signsFrom_cons_of_not (.inr hc), signsFrom_cons_of_not (.inr hc)]

/-- Whether an equals sign between two parts of a text is an assignment sign. -/
structure IsSignBetween (p q : List Char) : Prop where
  isCode : (Mode.plain.afterAll p).isCode = true
  isAssignment : isAssignmentBetween p.getLast? q.head? = true

/-- A sign stands at a place if the text is cut there into two parts with a sign between them. -/
theorem mem_signsFrom_iff {mode : Mode} {before : Option Char} {at_ i : Nat} {s : List Char} :
    i ∈ signsFrom mode before at_ s ↔
      ∃ p q, s = p ++ '=' :: q ∧ i = at_ + p.length ∧ (mode.afterAll p).isCode = true ∧
        isAssignmentBetween (p.getLast?.or before) q.head? = true := by
  induction s generalizing mode before at_ with
  | nil => simp [signsFrom]
  | cons c s ih =>
    have hmem : i ∈ signsFrom mode before at_ (c :: s) ↔
        (mode.isCode = true ∧ c = '=' ∧ isAssignmentBetween before s.head? = true ∧ i = at_) ∨
          i ∈ signsFrom (mode.after c) (some c) (at_ + 1) s := by
      rw [signsFrom]
      split
      · rename_i htest
        simp only [Bool.and_eq_true, decide_eq_true_eq] at htest
        simp [htest]
      · rename_i htest
        simp only [Bool.and_eq_true, decide_eq_true_eq] at htest
        constructor
        · exact .inr
        · rintro (⟨hcode, hc, hbetween, -⟩ | h)
          · exact absurd ⟨⟨hcode, hc⟩, hbetween⟩ htest
          · exact h
    rw [hmem, ih]
    constructor
    · rintro (⟨hcode, rfl, hbetween, rfl⟩ | ⟨p, q, rfl, rfl, hcode, hbetween⟩)
      · exact ⟨[], s, rfl, rfl, hcode, hbetween⟩
      · refine ⟨c :: p, q, rfl, ?_, hcode, ?_⟩
        · rw [List.length_cons]
          omega
        · rw [getLast?_cons_or]
          exact hbetween
    · rintro ⟨p, q, hs, rfl, hcode, hbetween⟩
      cases p with
      | nil =>
        obtain ⟨rfl, rfl⟩ := List.cons.inj hs
        exact .inl ⟨hcode, rfl, hbetween, rfl⟩
      | cons d p =>
        obtain ⟨rfl, rfl⟩ := List.cons.inj hs
        rw [getLast?_cons_or] at hbetween
        refine .inr ⟨p, q, rfl, ?_, hcode, hbetween⟩
        rw [List.length_cons]
        omega

theorem mem_assignments_iff {i : Nat} {s : List Char} :
    i ∈ assignments s ↔ ∃ p q, s = p ++ '=' :: q ∧ i = p.length ∧ IsSignBetween p q := by
  rw [assignments_eq_signsFrom, mem_signsFrom_iff]
  simp only [Nat.zero_add, Option.or_none]
  constructor
  · rintro ⟨p, q, hs, hi, hcode, hbetween⟩
    exact ⟨p, q, hs, hi, hcode, hbetween⟩
  · rintro ⟨p, q, hs, hi, hcode, hbetween⟩
    exact ⟨p, q, hs, hi, hcode, hbetween⟩

theorem IsSignBetween.getLast?_ne {p q : List Char} (h : IsSignBetween p q) :
    p.getLast? ≠ some '=' := by
  intro hlast
  have hbetween := h.isAssignment
  simp [hlast, isAssignmentBetween, operatorStarts] at hbetween

theorem IsSignBetween.head?_ne {p q : List Char} (h : IsSignBetween p q) :
    q.head? ≠ some '=' := by
  intro hhead
  have hbetween := h.isAssignment
  simp [hhead, isAssignmentBetween, operatorEnds] at hbetween

/-- The signs of a text are those of the part in front of a sign, the sign, and those of the part
behind it. -/
theorem assignments_append_cons {p q : List Char} (h : IsSignBetween p q) :
    assignments (p ++ '=' :: q)
      = assignments p ++ p.length :: (assignments q).map (· + (p.length + 1)) := by
  have hfront := signsFrom_append (t := '=' :: q) (fun hlast => absurd hlast h.getLast?_ne) .plain
    none 0
  have hback : signsFrom (Mode.plain.afterAll p) p.getLast? p.length ('=' :: q)
      = p.length :: signsFrom .plain (some '=') (p.length + 1) q := by
    rw [signsFrom, if_pos (by simp [h.isCode, h.isAssignment]), Mode.after_equals h.isCode]
  rw [Option.or_none, Nat.zero_add, hback, signsFrom_none_before (.inr h.head?_ne)] at hfront
  rw [assignments_eq_signsFrom, assignments_eq_signsFrom, assignments_eq_signsFrom, hfront,
    ← signsFrom_add, Nat.zero_add]

end Recast.Code
