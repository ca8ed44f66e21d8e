import Mathlib.Order.Bounds.Defs
import Recast.Proofs.Scanning

/-!
# A lexical grammar of code text

The regions of a text are found by functions that look for the end of each. Here they are given by a
grammar that mentions none of these functions: `Region.StandsBefore` says which texts a region can
have in front of a given rest, and `Lexes` cuts a whole text into regions from left to right. The
condition on the rest is what makes a region end at the first place where it can.

Every text is cut in exactly one way (`lexes_iff`), and the assignment signs are the equals signs
that the grammar takes for code and that are no part of an operator (`Lexes.mem_assignments_iff`).
They are listed in increasing order, so that a text is cut in two at the least or at the greatest of
them (`assignments_lexed`).
-/

set_option autoImplicit false

namespace Recast.Code

/-! ## The grammar -/

/-- What can stand in a verbatim string: any characters, but a quote only doubled. -/
inductive VerbatimContent : List Char → Prop
  | nil : VerbatimContent []
  | char {c : Char} {s : List Char} : c ≠ '"' → VerbatimContent s → VerbatimContent (c :: s)
  | doubled {s : List Char} : VerbatimContent s → VerbatimContent ('"' :: '"' :: s)

/-- What can stand in a literal: any characters, but the quote only behind a backslash. -/
inductive QuotedContent (quote : Char) : List Char → Prop
  | nil : QuotedContent quote []
  | char {c : Char} {s : List Char} : c ≠ quote → c ≠ '\\' → QuotedContent quote s →
      QuotedContent quote (c :: s)
  | escaped (c : Char) {s : List Char} : QuotedContent quote s →
      QuotedContent quote ('\\' :: c :: s)

/-- Whether a comment or literal opens at the front of a text. -/
def Opens (s : List Char) : Prop :=
  ['/', '/'] <+: s ∨ ['/', '*'] <+: s ∨ ['@', '"'] <+: s ∨ ['"'] <+: s ∨ ['\''] <+: s

/-- Which regions stand in front of a rest. A region that is not closed stands at the end. -/
inductive Region.StandsBefore : Region → List Char → Prop
  | lineComment {content rest : List Char} : '\n' ∉ content →
      (rest = [] ∨ rest.head? = some '\n') →
      StandsBefore (.lineComment ('/' :: '/' :: content)) rest
  | blockComment {content : List Char} (rest : List Char) : ¬ ['*', '/'] <:+: content →
      StandsBefore (.blockComment ('/' :: '*' :: (content ++ ['*', '/']))) rest
  | openBlockComment {content : List Char} : ¬ ['*', '/'] <:+: content →
      StandsBefore (.blockComment ('/' :: '*' :: content)) []
  | verbatim {content rest : List Char} : VerbatimContent content → rest.head? ≠ some '"' →
      StandsBefore (.verbatim ('@' :: '"' :: (content ++ ['"']))) rest
  | openVerbatim {content : List Char} : VerbatimContent content →
      StandsBefore (.verbatim ('@' :: '"' :: content)) []
  | quoted {quote : Char} {content : List Char} (rest : List Char) : quote = '"' ∨ quote = '\'' →
      QuotedContent quote content → StandsBefore (.quoted (quote :: (content ++ [quote]))) rest
  | openQuoted {quote : Char} {content ending : List Char} : quote = '"' ∨ quote = '\'' →
      QuotedContent quote content → (ending = [] ∨ ending = ['\\']) →
      StandsBefore (.quoted (quote :: (content ++ ending))) []
  | code {c : Char} {rest : List Char} : ¬ Opens (c :: rest) → StandsBefore (.code c) rest

/-- How a text is cut into regions from left to right. -/
inductive Lexes : List Char → List Region → Prop
  | nil : Lexes [] []
  | cons {r : Region} {rest : List Char} {rs : List Region} : r.StandsBefore rest →
      Lexes rest rs → Lexes (r.text ++ rest) (r :: rs)

/-! ## The ends of regions -/

theorem lineEnd_of_not_mem {content rest : List Char} (h : '\n' ∉ content)
    (hrest : rest = [] ∨ rest.head? = some '\n') : lineEnd (content ++ rest) = (content, rest) := by
  have hcontent : ∀ c ∈ content, decide (c ≠ '\n') = true := by
    intro c hc
    rw [decide_eq_true_eq]
    rintro rfl
    exact h hc
  have hstop : rest.takeWhile (· ≠ '\n') = [] ∧ rest.dropWhile (· ≠ '\n') = rest := by
    rcases hrest with rfl | hrest
    · exact ⟨rfl, rfl⟩
    · rw [List.eq_cons_of_mem_head? hrest]
      exact ⟨rfl, rfl⟩
  rw [lineEnd, List.takeWhile_append_of_pos hcontent, List.dropWhile_append_of_pos hcontent,
    hstop.1, hstop.2, List.append_nil]

theorem not_mem_lineEnd (s : List Char) :
    '\n' ∉ (lineEnd s).1 ∧ ((lineEnd s).2 = [] ∨ (lineEnd s).2.head? = some '\n') := by
  constructor
  · intro hmem
    have hne := List.all_eq_true.1 List.all_takeWhile _ hmem
    simp at hne
  · have hstop := List.head?_dropWhile_not (fun c : Char => decide (c ≠ '\n')) s
    rw [lineEnd]
    cases hrest : s.dropWhile (fun c => decide (c ≠ '\n')) with
    | nil => exact .inl rfl
    | cons c rest =>
      rw [hrest] at hstop
      simpa using hstop

theorem blockEnd_cons {c : Char} {s : List Char} (h : ¬ ['*', '/'] <+: c :: s) :
    blockEnd (c :: s) = (c :: (blockEnd s).1, (blockEnd s).2) := by
  rw [blockEnd]
  rintro rest rfl rfl
  exact h ⟨rest, rfl⟩

theorem blockEnd_closed {content : List Char} (h : ¬ ['*', '/'] <:+: content) (rest : List Char) :
    blockEnd (content ++ '*' :: '/' :: rest) = (content ++ ['*', '/'], rest) := by
  induction content with
  | nil => rfl
  | cons c content ih =>
    rw [List.infix_cons_iff, not_or] at h
    -- What follows the content begins with an asterisk, so the mark does not begin in the content.
    have hopen : ¬ ['*', '/'] <+: c :: (content ++ '*' :: '/' :: rest) := by
      cases content with
      | nil => simp [List.cons_prefix_cons]
      | cons d content =>
        have hfront := h.1
        simp only [List.cons_prefix_cons, List.nil_prefix, and_true, List.cons_append] at hfront ⊢
        exact hfront
    rw [List.cons_append, blockEnd_cons hopen, ih h.2, List.cons_append]

theorem blockEnd_open {content : List Char} (h : ¬ ['*', '/'] <:+: content) :
    blockEnd content = (content, []) := by
  induction content with
  | nil => rfl
  | cons c content ih =>
    rw [List.infix_cons_iff, not_or] at h
    rw [blockEnd_cons h.1, ih h.2]

/-- What is found has the closing mark at its end only, or nowhere. -/
theorem blockEnd_cases (s : List Char) :
    (∃ content, (blockEnd s).1 = content ++ ['*', '/'] ∧ ¬ ['*', '/'] <:+: content) ∨
      (¬ ['*', '/'] <:+: (blockEnd s).1 ∧ (blockEnd s).2 = []) := by
  fun_induction blockEnd s with
  | case1 => exact .inr ⟨by simp, rfl⟩
  | case2 s => exact .inl ⟨[], rfl, by simp⟩
  | case3 c s hopen ended ih =>
    -- The mark does not begin at `c`, whatever part of the rest is taken.
    have hfront : ∀ part, part <+: s → ¬ ['*', '/'] <+: c :: part := by
      rintro part ⟨tail, rfl⟩ ⟨more, hmark⟩
      obtain ⟨rfl, rfl⟩ := List.cons.inj hmark
      exact hopen _ rfl rfl
    rcases ih with ⟨content, hcontent, hnone⟩ | ⟨hnone, hrest⟩
    · refine .inl ⟨c :: content, congrArg (c :: ·) hcontent, ?_⟩
      rw [List.infix_cons_iff, not_or]
      refine ⟨hfront content ?_, hnone⟩
      refine ⟨['*', '/'] ++ ended.2, ?_⟩
      rw [← List.append_assoc, ← hcontent]
      exact blockEnd_append s
    · refine .inr ⟨?_, hrest⟩
      rw [List.infix_cons_iff, not_or]
      exact ⟨hfront ended.1 ⟨ended.2, blockEnd_append s⟩, hnone⟩

theorem verbatimEnd_char {c : Char} (h : c ≠ '"') (s : List Char) :
    verbatimEnd (c :: s) = (c :: (verbatimEnd s).1, (verbatimEnd s).2) := by
  rw [verbatimEnd]
  · rintro rest rfl
    exact absurd rfl h
  · exact h

theorem verbatimEnd_quote {s : List Char} (h : s.head? ≠ some '"') :
    verbatimEnd ('"' :: s) = (['"'], s) := by
  rw [verbatimEnd]
  rintro rest rfl
  exact h rfl

theorem verbatimEnd_closed {content rest : List Char} (h : VerbatimContent content)
    (hrest : rest.head? ≠ some '"') :
    verbatimEnd (content ++ '"' :: rest) = (content ++ ['"'], rest) := by
  induction h with
  | nil => exact verbatimEnd_quote hrest
  | char hc _ ih => rw [List.cons_append, verbatimEnd_char hc, ih, List.cons_append]
  | doubled _ ih =>
    rw [List.cons_append, List.cons_append, verbatimEnd, ih]
    rfl

theorem verbatimEnd_open {content : List Char} (h : VerbatimContent content) :
    verbatimEnd content = (content, []) := by
  induction h with
  | nil => rfl
  | char hc _ ih => rw [verbatimEnd_char hc, ih]
  | doubled _ ih => rw [verbatimEnd, ih]

/-- What is found ends with a quote that is not doubled, or is content to its end. -/
theorem verbatimEnd_cases (s : List Char) :
    (∃ content, (verbatimEnd s).1 = content ++ ['"'] ∧ VerbatimContent content ∧
        (verbatimEnd s).2.head? ≠ some '"') ∨
      (VerbatimContent (verbatimEnd s).1 ∧ (verbatimEnd s).2 = []) := by
  fun_induction verbatimEnd s with
  | case1 => exact .inr ⟨.nil, rfl⟩
  | case2 s ended ih =>
    rcases ih with ⟨content, hcontent, h, hrest⟩ | ⟨h, hrest⟩
    · exact .inl ⟨'"' :: '"' :: content, congrArg ('"' :: '"' :: ·) hcontent, .doubled h, hrest⟩
    · exact .inr ⟨.doubled h, hrest⟩
  | case3 s hsingle =>
    -- The next character is no quote, or the two would be a doubled one.
    refine .inl ⟨[], rfl, .nil, ?_⟩
    intro hhead
    exact hsingle _ (List.eq_cons_of_mem_head? hhead)
  | case4 c s _ hother ended ih =>
    rcases ih with ⟨content, hcontent, h, hrest⟩ | ⟨h, hrest⟩
    · exact .inl ⟨c :: content, congrArg (c :: ·) hcontent, .char hother h, hrest⟩
    · exact .inr ⟨.char hother h, hrest⟩

theorem quotedEnd_char {quote c : Char} (hquote : c ≠ quote) (hslash : c ≠ '\\') (s : List Char) :
    quotedEnd quote (c :: s) = (c :: (quotedEnd quote s).1, (quotedEnd quote s).2) := by
  rw [quotedEnd, if_neg hquote]
  · rintro rfl
    exact absurd rfl hslash
  · rintro d rest rfl
    exact absurd rfl hslash

theorem quotedEnd_quote {quote : Char} (h : quote ≠ '\\') (s : List Char) :
    quotedEnd quote (quote :: s) = ([quote], s) := by
  rw [quotedEnd, if_pos rfl]
  · rintro rfl
    exact absurd rfl h
  · rintro d rest rfl
    exact absurd rfl h

theorem quotedEnd_closed {quote : Char} {content : List Char} (hquote : quote ≠ '\\')
    (h : QuotedContent quote content) (rest : List Char) :
    quotedEnd quote (content ++ quote :: rest) = (content ++ [quote], rest) := by
  induction h with
  | nil => exact quotedEnd_quote hquote rest
  | char hc hslash _ ih =>
    rw [List.cons_append, quotedEnd_char hc hslash, ih, List.cons_append]
  | escaped c _ ih =>
    rw [List.cons_append, List.cons_append, quotedEnd, ih]
    rfl

theorem quotedEnd_open {quote : Char} {content ending : List Char}
    (h : QuotedContent quote content) (hending : ending = [] ∨ ending = ['\\']) :
    quotedEnd quote (content ++ ending) = (content ++ ending, []) := by
  induction h with
  | nil =>
    rcases hending with rfl | rfl
    · rfl
    · rfl
  | char hc hslash _ ih => rw [List.cons_append, quotedEnd_char hc hslash, ih]
  | escaped c _ ih => rw [List.cons_append, List.cons_append, quotedEnd, ih]

/-- What is found ends with a quote that no backslash takes, or goes on to the end. -/
theorem quotedEnd_cases (quote : Char) (s : List Char) :
    (∃ content, (quotedEnd quote s).1 = content ++ [quote] ∧ QuotedContent quote content) ∨
      (∃ content ending, (quotedEnd quote s).1 = content ++ ending ∧
        QuotedContent quote content ∧ (ending = [] ∨ ending = ['\\']) ∧
        (quotedEnd quote s).2 = []) := by
  fun_induction quotedEnd quote s with
  | case1 => exact .inr ⟨[], [], rfl, .nil, .inl rfl, rfl⟩
  | case2 => exact .inr ⟨[], ['\\'], rfl, .nil, .inr rfl, rfl⟩
  | case3 c s ended ih =>
    rcases ih with ⟨content, hcontent, h⟩ | ⟨content, ending, hcontent, h, hending, hrest⟩
    · exact .inl ⟨'\\' :: c :: content, congrArg ('\\' :: c :: ·) hcontent, .escaped c h⟩
    · exact .inr ⟨'\\' :: c :: content, ending, congrArg ('\\' :: c :: ·) hcontent,
        .escaped c h, hending, hrest⟩
  | case4 s _ _ => exact .inl ⟨[], rfl, .nil⟩
  | case5 c s hend hescape hother ended ih =>
    -- A backslash would take the next character with it, or be the last one.
    have hslash : c ≠ '\\' := by
      intro hc
      cases s with
      | nil => exact hend hc rfl
      | cons d s => exact hescape d s hc rfl
    rcases ih with ⟨content, hcontent, h⟩ | ⟨content, ending, hcontent, h, hending, hrest⟩
    · exact .inl ⟨c :: content, congrArg (c :: ·) hcontent, .char hother hslash h⟩
    · exact .inr ⟨c :: content, ending, congrArg (c :: ·) hcontent, .char hother hslash h,
        hending, hrest⟩

/-! ## Regions by the grammar -/

theorem quoted_standsBefore {quote : Char} (hquote : quote = '"' ∨ quote = '\'') (s : List Char) :
    (Region.quoted (quote :: (quotedEnd quote s).1)).StandsBefore (quotedEnd quote s).2 := by
  rcases quotedEnd_cases quote s with
    ⟨content, hcontent, h⟩ | ⟨content, ending, hcontent, h, hending, hrest⟩
  · rw [hcontent]
    exact .quoted _ hquote h
  · rw [hcontent, hrest]
    exact .openQuoted hquote h hending

/-- The region that is found at the front of a text is one of the grammar. -/
theorem region_standsBefore (c : Char) (s : List Char) :
    (region c s).1.StandsBefore (region c s).2 := by
  fun_cases region c s with
  | case1 s =>
    obtain ⟨hline, hrest⟩ := not_mem_lineEnd s
    exact .lineComment hline hrest
  | case2 s =>
    rcases blockEnd_cases s with ⟨content, hcontent, hnone⟩ | ⟨hnone, hrest⟩
    · rw [hcontent]
      exact .blockComment _ hnone
    · rw [hrest]
      exact .openBlockComment hnone
  | case3 s =>
    rcases verbatimEnd_cases s with ⟨content, hcontent, h, hrest⟩ | ⟨h, hrest⟩
    · rw [hcontent]
      exact .verbatim h hrest
    · rw [hrest]
      exact .openVerbatim h
  | case4 s => exact quoted_standsBefore (.inl rfl) s
  | case5 s => exact quoted_standsBefore (.inr rfl) s
  | case6 c s hline hblock hverbatim hdouble hsingle =>
    -- Each way to open something is one of the cases above.
    apply Region.StandsBefore.code
    rintro (⟨rest, h⟩ | ⟨rest, h⟩ | ⟨rest, h⟩ | ⟨rest, h⟩ | ⟨rest, h⟩)
    all_goals obtain ⟨rfl, rfl⟩ := List.cons.inj h
    · exact hline _ rfl rfl
    · exact hblock _ rfl rfl
    · exact hverbatim _ rfl rfl
    · exact hdouble rfl
    · exact hsingle rfl

theorem region_code {c : Char} {s : List Char} (h : ¬ Opens (c :: s)) :
    region c s = (.code c, s) := by
  fun_cases region c s with
  | case1 s => exact absurd (.inl ⟨s, rfl⟩) h
  | case2 s => exact absurd (.inr (.inl ⟨s, rfl⟩)) h
  | case3 s => exact absurd (.inr (.inr (.inl ⟨s, rfl⟩))) h
  | case4 s => exact absurd (.inr (.inr (.inr (.inl ⟨s, rfl⟩)))) h
  | case5 s => exact absurd (.inr (.inr (.inr (.inr ⟨s, rfl⟩)))) h
  | case6 c s => rfl

theorem region_quote {quote : Char} (hquote : quote = '"' ∨ quote = '\'') (s : List Char) :
    region quote s = (.quoted (quote :: (quotedEnd quote s).1), (quotedEnd quote s).2) := by
  rcases hquote with rfl | rfl
  · rfl
  · rfl

/-- A region of the grammar is the one that is found. -/
theorem Region.StandsBefore.region_eq {r : Region} {rest : List Char} (h : r.StandsBefore rest) :
    ∃ c s, r.text ++ rest = c :: s ∧ region c s = (r, rest) := by
  have hslash : ∀ {quote : Char}, quote = '"' ∨ quote = '\'' → quote ≠ '\\' := by
    rintro quote (rfl | rfl)
    · decide
    · decide
  cases h with
  | @lineComment content _ hline hrest =>
    refine ⟨'/', '/' :: (content ++ rest), rfl, ?_⟩
    rw [region, lineEnd_of_not_mem hline hrest]
  | @blockComment content _ hnone =>
    refine ⟨'/', '*' :: (content ++ '*' :: '/' :: rest), by simp [text], ?_⟩
    rw [region, blockEnd_closed hnone]
  | @openBlockComment content hnone =>
    refine ⟨'/', '*' :: content, by simp [text], ?_⟩
    rw [region, blockEnd_open hnone]
  | @verbatim content _ h hrest =>
    refine ⟨'@', '"' :: (content ++ '"' :: rest), by simp [text], ?_⟩
    rw [region, verbatimEnd_closed h hrest]
  | @openVerbatim content h =>
    refine ⟨'@', '"' :: content, by simp [text], ?_⟩
    rw [region, verbatimEnd_open h]
  | @quoted quote content _ hquote h =>
    refine ⟨quote, content ++ quote :: rest, by simp [text], ?_⟩
    rw [region_quote hquote, quotedEnd_closed (hslash hquote) h]
  | @openQuoted quote content ending hquote h hending =>
    refine ⟨quote, content ++ ending, by simp [text], ?_⟩
    rw [region_quote hquote, quotedEnd_open h hending]
  | @code c _ h => exact ⟨c, rest, rfl, region_code h⟩

theorem lexes_regions (s : List Char) : Lexes s (regions s) := by
  -- A region takes at least one character, so what is left is shorter.
  induction hlength : s.length using Nat.strongRecOn generalizing s with
  | _ n ih =>
    cases s with
    | nil => exact .nil
    | cons c s =>
      have hrest := ih _ (hlength ▸ region_length_lt c s) (region c s).2 rfl
      have hlexes := Lexes.cons (region_standsBefore c s) hrest
      rw [region_text_append] at hlexes
      rw [regions_cons]
      exact hlexes

theorem Lexes.eq_regions {s : List Char} {rs : List Region} (h : Lexes s rs) : rs = regions s := by
  induction h with
  | nil => rfl
  | cons hr _ ih =>
    obtain ⟨c, s, htext, hregion⟩ := hr.region_eq
    rw [htext, regions_cons, hregion, ih]

/-- Every text is cut into regions in exactly one way. -/
theorem lexes_iff {s : List Char} {rs : List Region} : Lexes s rs ↔ rs = regions s :=
  ⟨Lexes.eq_regions, fun h => h ▸ lexes_regions s⟩

theorem Lexes.flatMap_text {s : List Char} {rs : List Region} (h : Lexes s rs) :
    rs.flatMap Region.text = s := by
  induction h with
  | nil => rfl
  | cons _ _ ih => rw [List.flatMap_cons, ih]

theorem Lexes.text_ne_nil {s : List Char} {rs : List Region} (h : Lexes s rs) :
    ∀ r ∈ rs, r.text ≠ [] := by
  induction h with
  | nil => simp
  | cons hr _ ih =>
    obtain ⟨c, s, htext, hregion⟩ := hr.region_eq
    have hhead := region_text_head? c s
    rw [hregion] at hhead
    refine List.forall_mem_cons.2 ⟨?_, ih⟩
    intro hnil
    rw [hnil] at hhead
    cases hhead

/-! ## Assignment signs by the grammar -/

/-- Whether an assignment sign stands at a place of a text with some regions: an equals sign of code
that neither begins nor ends an operator. The characters on its two sides are those of the text,
whatever regions they belong to. -/
structure IsSign (s : List Char) (rs : List Region) (i : Nat) : Prop where
  isCode : ∃ front back, rs = front ++ .code '=' :: back ∧ (front.flatMap Region.text).length = i
  next : ∀ c, s[i + 1]? = some c → c ≠ '=' ∧ c ≠ '>'
  previous : ∀ c, 0 < i → s[i - 1]? = some c → c ∉ "=!<>+-*/%&|^?".toList

theorem isAssignmentBetween_iff {before after : Option Char} :
    isAssignmentBetween before after = true ↔
      (∀ c, after = some c → c ≠ '=' ∧ c ≠ '>') ∧
        ∀ c, before = some c → c ∉ "=!<>+-*/%&|^?".toList := by
  have hstarts : operatorStarts = "=!<>+-*/%&|^?".toList := by decide
  rw [isAssignmentBetween, ← hstarts, Bool.and_eq_true, and_comm]
  refine and_congr ?_ ?_
  · cases after <;> simp [operatorEnds]
  · cases before <;> simp

/-- The first character of some regions that are not empty. -/
theorem head?_flatMap_text {rs : List Region} (h : ∀ r ∈ rs, r.text ≠ []) :
    (rs.flatMap Region.text).head? = (rs.head?.map Region.text).bind List.head? := by
  cases rs with
  | nil => rfl
  | cons r rs =>
    obtain ⟨c, s, htext⟩ := List.exists_cons_of_ne_nil (h r List.mem_cons_self)
    simp [htext]

/-- The last character of a region and some others, with one in front of them. -/
theorem getLast?_flatMap_cons_or {r : Region} (h : r.text ≠ []) (rs : List Region)
    (before : Option Char) :
    ((r :: rs).flatMap Region.text).getLast?.or before
      = (rs.flatMap Region.text).getLast?.or r.text.getLast? := by
  rw [List.flatMap_cons, List.getLast?_append, List.getLast?_eq_some_getLast h, Option.or_assoc]
  rfl

theorem mem_assignmentsFrom_iff {rs : List Region} (hne : ∀ r ∈ rs, r.text ≠ [])
    {before : Option Char} {at_ i : Nat} :
    i ∈ assignmentsFrom before at_ rs ↔
      ∃ front back, rs = front ++ .code '=' :: back ∧
        i = at_ + (front.flatMap Region.text).length ∧
        isAssignmentBetween ((front.flatMap Region.text).getLast?.or before)
          (back.flatMap Region.text).head? = true := by
  induction rs generalizing before at_ with
  | nil => simp [assignmentsFrom]
  | cons r rs ih =>
    obtain ⟨hr, hrs⟩ := List.forall_mem_cons.1 hne
    -- Either the sign is the first region, or it is found behind it.
    have hmem : i ∈ assignmentsFrom before at_ (r :: rs) ↔
        (r = .code '=' ∧ isAssignmentBetween before (rs.flatMap Region.text).head? = true ∧
          i = at_) ∨ i ∈ assignmentsFrom r.text.getLast? (at_ + r.text.length) rs := by
      rw [assignmentsFrom, ← head?_flatMap_text hrs]
      split
      case isTrue htest =>
        rw [Bool.and_eq_true, decide_eq_true_eq] at htest
        simp [htest]
      case isFalse htest =>
        rw [Bool.and_eq_true, decide_eq_true_eq] at htest
        simp only [← and_assoc, htest, false_and, false_or]
    rw [hmem, ih hrs]
    constructor
    · rintro (⟨rfl, hbetween, rfl⟩ | ⟨front, back, rfl, rfl, hbetween⟩)
      · exact ⟨[], rs, rfl, rfl, hbetween⟩
      · refine ⟨r :: front, back, rfl, ?_, ?_⟩
        · rw [List.flatMap_cons, List.length_append, Nat.add_assoc]
        · rw [getLast?_flatMap_cons_or hr]
          exact hbetween
    · rintro ⟨front, back, hcut, rfl, hbetween⟩
      cases front with
      | nil =>
        obtain ⟨rfl, rfl⟩ := List.cons.inj hcut
        exact .inl ⟨rfl, hbetween, rfl⟩
      | cons first front =>
        obtain ⟨rfl, rfl⟩ := List.cons.inj hcut
        rw [getLast?_flatMap_cons_or hr] at hbetween
        refine .inr ⟨front, back, rfl, ?_, hbetween⟩
        rw [List.flatMap_cons, List.length_append, Nat.add_assoc]

/-- The listed places are those at which the grammar has an assignment sign. -/
theorem Lexes.mem_assignments_iff {s : List Char} {rs : List Region} (h : Lexes s rs) {i : Nat} :
    i ∈ assignments s ↔ IsSign s rs i := by
  -- What stands on the two sides of a place in the text, when the regions are cut there.
  have hsides : ∀ front back : List Region, rs = front ++ .code '=' :: back →
      s[(front.flatMap Region.text).length + 1]? = (back.flatMap Region.text).head? ∧
        (0 < (front.flatMap Region.text).length →
          s[(front.flatMap Region.text).length - 1]? = (front.flatMap Region.text).getLast?) := by
    intro front back hcut
    have htext : s = front.flatMap Region.text ++ '=' :: back.flatMap Region.text := by
      rw [← h.flatMap_text, hcut, List.flatMap_append, List.flatMap_cons]
      rfl
    rw [htext]
    constructor
    · rw [List.getElem?_append_right (Nat.le_add_right _ 1), Nat.add_sub_cancel_left,
        List.getElem?_cons_succ, List.head?_eq_getElem?]
    · intro hpos
      rw [List.getLast?_eq_getElem?, List.getElem?_append_left (by omega)]
  rw [assignments, ← h.eq_regions, mem_assignmentsFrom_iff h.text_ne_nil]
  simp only [Nat.zero_add, Option.or_none, isAssignmentBetween_iff]
  constructor
  · rintro ⟨front, back, hcut, rfl, hnext, hprevious⟩
    obtain ⟨hright, hleft⟩ := hsides front back hcut
    refine ⟨⟨front, back, hcut, rfl⟩, ?_, ?_⟩
    · rw [hright]
      exact hnext
    · intro c hpos
      rw [hleft hpos]
      exact hprevious c
  · rintro ⟨⟨front, back, hcut, rfl⟩, hnext, hprevious⟩
    obtain ⟨hright, hleft⟩ := hsides front back hcut
    refine ⟨front, back, hcut, rfl, ?_, ?_⟩
    · rw [hright] at hnext
      exact hnext
    · intro c hc
      have hpos : 0 < (front.flatMap Region.text).length :=
        List.length_pos_of_mem (List.mem_of_getLast? hc)
      exact hprevious c hpos ((hleft hpos).trans hc)

theorem signsFrom_pairwise_lt (mode : Mode) (before : Option Char) (at_ : Nat) (s : List Char) :
    (signsFrom mode before at_ s).Pairwise (· < ·) := by
  induction s generalizing mode before at_ with
  | nil => exact .nil
  | cons c s ih =>
    rw [signsFrom]
    split
    · refine List.pairwise_cons.2 ⟨?_, ih _ _ _⟩
      intro i hi
      obtain ⟨p, q, -, rfl, -⟩ := mem_signsFrom_iff.1 hi
      omega
    · exact ih _ _ _

/-- The places are listed from left to right, each once. -/
theorem assignments_pairwise_lt (s : List Char) : (assignments s).Pairwise (· < ·) := by
  rw [assignments_eq_signsFrom]
  exact signsFrom_pairwise_lt .plain none 0 s

theorem head?_eq_of_isLeast {l : List Nat} (hsorted : l.Pairwise (· < ·)) {i : Nat}
    (h : IsLeast {j | j ∈ l} i) : l.head? = some i := by
  cases l with
  | nil => cases h.1
  | cons j l =>
    rcases List.mem_cons.1 h.1 with rfl | hi
    · rfl
    · have hlt := (List.pairwise_cons.1 hsorted).1 i hi
      have hle := h.2 (List.mem_cons_self : j ∈ j :: l)
      omega

theorem getLast?_eq_of_isGreatest {l : List Nat} (hsorted : l.Pairwise (· < ·)) {i : Nat}
    (h : IsGreatest {j | j ∈ l} i) : l.getLast? = some i := by
  rcases List.eq_nil_or_concat' l with rfl | ⟨front, j, rfl⟩
  · cases h.1
  · rw [List.getLast?_concat]
    rcases List.mem_append.1 h.1 with hi | hi
    · have hlt := (List.pairwise_append.1 hsorted).2.2 i hi j (List.mem_singleton_self j)
      have hle := h.2 (List.mem_append_right front (List.mem_singleton_self j))
      omega
    · rw [List.mem_singleton.1 hi]

/-- A text has exactly one decomposition by the lexical grammar. The listed places are those of its
assignment signs, in increasing order, and the text is cut at the least and at the greatest of them,
with both parts trimmed; without a sign it is not cut. -/
theorem assignments_lexed (text : String) :
    let s := text.toList
    (∃! rs, Lexes s rs) ∧
      ∀ rs, Lexes s rs →
        (∀ i, i ∈ assignments s ↔ IsSign s rs i) ∧
        (assignments s).Pairwise (· < ·) ∧
        (∀ i, IsLeast {j | IsSign s rs j} i →
          cutFirst text = (Text.stripped (String.ofList (s.take i)),
            some (Text.stripped (String.ofList (s.drop (i + 1)))))) ∧
        (∀ i, IsGreatest {j | IsSign s rs j} i →
          cutLast text = (Text.stripped (String.ofList (s.take i)),
            some (Text.stripped (String.ofList (s.drop (i + 1)))))) ∧
        ((∀ i, ¬ IsSign s rs i) →
          cutFirst text = (Text.stripped text, none) ∧
            cutLast text = (Text.stripped text, none)) := by
  intro s
  refine ⟨⟨regions s, lexes_regions s, fun rs h => h.eq_regions⟩, ?_⟩
  intro rs hlexes
  have hsigns : {j | IsSign s rs j} = {j | j ∈ assignments s} :=
    Set.ext fun j => hlexes.mem_assignments_iff.symm
  have hsorted := assignments_pairwise_lt s
  refine ⟨fun i => hlexes.mem_assignments_iff, hsorted, ?_, ?_, ?_⟩
  · intro i hi
    rw [hsigns] at hi
    simp only [cutFirst, Text.stripped, String.toList_ofList, s]
    rw [head?_eq_of_isLeast hsorted hi]
    rfl
  · intro i hi
    rw [hsigns] at hi
    simp only [cutLast, Text.stripped, String.toList_ofList, s]
    rw [getLast?_eq_of_isGreatest hsorted hi]
    rfl
  · intro hnone
    have hnil : assignments s = [] := by
      rw [List.eq_nil_iff_forall_not_mem]
      exact fun i hi => hnone i (hlexes.mem_assignments_iff.1 hi)
    simp only [cutFirst, cutLast, s] at hnil ⊢
    rw [hnil]
    exact ⟨rfl, rfl⟩

/-- A text with a region of each sort and an equals sign in every one of them. -/
def everySort : String :=
  "a='='/*=*/=@\"=\"\"\" b=\"=\"//="

/-- The regions of that text. -/
def everySortRegions : List Region :=
  [.code 'a', .code '=', .quoted "'='".toList, .blockComment "/*=*/".toList, .code '=',
    .verbatim "@\"=\"\"\"".toList, .code ' ', .code 'b', .code '=', .quoted "\"=\"".toList,
    .lineComment "//=".toList]

theorem assignments_lexed_everySort :
    Lexes everySort.toList everySortRegions ∧
      IsSign everySort.toList everySortRegions 1 ∧ ¬ IsSign everySort.toList everySortRegions 10 ∧
      cutFirst everySort = ("a", some "'='/*=*/=@\"=\"\"\" b=\"=\"//=") ∧
      cutLast everySort = ("a='='/*=*/=@\"=\"\"\" b", some "\"=\"//=") := by
  have hlexes : Lexes everySort.toList everySortRegions := lexes_iff.2 (by decide +kernel)
  have hsigns : assignments everySort.toList = [1, 19] := by decide +kernel
  obtain ⟨hmem, -, hfirst, hlast, -⟩ := (assignments_lexed everySort).2 everySortRegions hlexes
  rw [hsigns] at hmem
  refine ⟨hlexes, (hmem 1).1 (by decide), fun h => absurd ((hmem 10).2 h) (by decide), ?_, ?_⟩
  · refine (hfirst 1 ⟨(hmem 1).1 (by decide), ?_⟩).trans (by decide +kernel)
    intro i hi
    have hi := (hmem i).2 hi
    simp only [List.mem_cons, List.not_mem_nil, or_false] at hi
    omega
  · refine (hlast 19 ⟨(hmem 19).1 (by decide), ?_⟩).trans (by decide +kernel)
    intro i hi
    have hi := (hmem i).2 hi
    simp only [List.mem_cons, List.not_mem_nil, or_false] at hi
    omega

end Recast.Code
