import Mathlib.Data.List.Infix
import Recast.Pass.Attribute
import Recast.Proofs.Pipeline

/-!
# Attribute sections

A text of attributes consists of sections in brackets, each with one attribute or several between
commas. An attribute may have a target in front and arguments behind; its name may be qualified and
may carry the ending `Attribute`. Blanks may stand around all parts. The types here are such texts
with all their parts, and each carries what is asked of it, so that any value of `Sections` is a
well-formed text. Of the arguments only the parentheses matter.

`Attribute.names` gives back the names of all attributes in order (`names_text`): the text is taken
apart at the dividers first, where arguments hide what is inside them (`Solid`), and then each piece
is reduced to its name (`Written.pieceName_text`).
-/

set_option autoImplicit false

namespace Recast.Attribute

open Text (isBlank trim)

/-! ## Well-formed texts -/

/-- Blanks, possibly none. -/
structure Blanks where
  chars : List Char
  areBlank : chars.all isBlank = true := by decide

/-- The marks that stand between the parts of an attribute. -/
def marks : List Char :=
  ['(', ')', '[', ']', ',', ':', '.']

/-- A target, a qualifier or a name: not empty, without marks, and without blanks at its ends. -/
structure Part where
  chars : List Char
  ne_nil : chars ≠ [] := by decide
  unmarked : chars.all (fun c => !marks.contains c) = true := by decide
  head?_solid : chars.head?.any isBlank = false := by decide
  getLast?_solid : chars.getLast?.any isBlank = false := by decide

/-- A part with blanks around it. -/
structure PaddedPart where
  before : Blanks
  part : Part
  after : Blanks

/-- A name that does not end with `Attribute`, as it is spelled: behind its qualifiers, with or
without that ending, and with blanks around it. -/
structure Spelling where
  qualifiers : List PaddedPart
  before : Blanks
  name : Part
  name_bare : ¬ "Attribute".toList <:+ name.chars := by decide
  hasEnding : Bool
  after : Blanks

/-- Arguments in which every closing parenthesis closes one that was opened, and all are closed, and
the blanks behind them. -/
structure Arguments where
  chars : List Char
  neverOverclosed : chars.inits.all (fun front => front.count ')' ≤ front.count '(') = true :=
    by decide
  closed : chars.count ')' = chars.count '(' := by decide
  after : Blanks

/-- An attribute as it is written. -/
structure Written where
  target : Option PaddedPart
  spelling : Spelling
  arguments : Option Arguments

/-- A section with at least one attribute, and the blanks behind it. -/
structure Section where
  first : Written
  others : List Written
  after : Blanks

/-- The sections of a text, and the blanks in front of them. -/
structure Sections where
  before : Blanks
  sections : List Section

/-- The text of a part with its blanks. -/
def PaddedPart.text (padded : PaddedPart) : List Char :=
  padded.before.chars ++ padded.part.chars ++ padded.after.chars

namespace Spelling

/-- The name with its ending, if it has it. -/
def word (spelling : Spelling) : List Char :=
  spelling.name.chars ++ if spelling.hasEnding then "Attribute".toList else []

/-- The text in front of the name and its blanks: each qualifier with a point behind it. -/
def qualifiersText (spelling : Spelling) : List Char :=
  spelling.qualifiers.flatMap fun qualifier => qualifier.text ++ ['.']

/-- The name with its ending, between blanks. -/
def lastPart (spelling : Spelling) : List Char :=
  spelling.before.chars ++ spelling.word ++ spelling.after.chars

/-- The text of a spelling. -/
def text (spelling : Spelling) : List Char :=
  spelling.qualifiersText ++ spelling.lastPart

end Spelling

namespace Written

/-- The text of the target, if there is one. -/
def targetText (written : Written) : List Char :=
  match written.target with
  | some target => target.text ++ [':']
  | none => []

/-- The text of the arguments, if there are any. -/
def argumentsText (written : Written) : List Char :=
  match written.arguments with
  | some arguments => '(' :: (arguments.chars ++ ')' :: arguments.after.chars)
  | none => []

/-- The text of an attribute. -/
def text (written : Written) : List Char :=
  written.targetText ++ written.spelling.text ++ written.argumentsText

/-- The name of an attribute. -/
def name (written : Written) : List Char :=
  written.spelling.name.chars

end Written

/-- The text of a section. -/
def Section.text (s : Section) : List Char :=
  '[' :: (s.first.text ++ s.others.flatMap (fun written => ',' :: written.text)
    ++ ']' :: s.after.chars)

/-- The names in a section. -/
def Section.names (s : Section) : List (List Char) :=
  s.first.name :: s.others.map Written.name

/-- The whole text. -/
def Sections.text (t : Sections) : List Char :=
  t.before.chars ++ t.sections.flatMap Section.text

/-- All names, in order. -/
def Sections.names (t : Sections) : List (List Char) :=
  t.sections.flatMap Section.names

/-! ## Taking the text apart -/

/-- A text that is not divided and leaves no parenthesis open. -/
def Solid (s : List Char) : Prop :=
  ∀ rest, piecesFrom 0 (s ++ rest) = (s ++ (piecesFrom 0 rest).1, (piecesFrom 0 rest).2)

theorem Solid.append {s t : List Char} (hs : Solid s) (ht : Solid t) : Solid (s ++ t) := by
  intro rest
  rw [List.append_assoc, hs, ht, List.append_assoc]

/-- How a character changes the number of open parentheses, of which there is at least one. -/
theorem depthAfter_succ_add_count (depth : Nat) (c : Char) :
    depthAfter (depth + 1) c + [c].count ')' = depth + 1 + [c].count '(' := by
  by_cases hopen : c = '('
  · subst hopen
    rfl
  by_cases hclose : c = ')'
  · subst hclose
    rfl
  · rw [depthAfter, if_neg hopen, if_neg hclose, List.count_cons_of_ne hopen,
      List.count_cons_of_ne hclose]
    rfl

/-- Inside of parentheses nothing is divided as long as they are not closed. -/
theorem piecesFrom_inside {args : List Char} {depth after : Nat}
    (h : ∀ front, front <+: args → front.count ')' ≤ depth + front.count '(')
    (hafter : after + args.count ')' = depth + 1 + args.count '(') (rest : List Char) :
    piecesFrom (depth + 1) (args ++ rest)
      = (args ++ (piecesFrom after rest).1, (piecesFrom after rest).2) := by
  induction args generalizing depth with
  | nil =>
    obtain rfl : after = depth + 1 := by simpa using hafter
    rfl
  | cons c args ih =>
    have hcount : ∀ (mark : Char) (s : List Char),
        (c :: s).count mark = [c].count mark + s.count mark := by
      intro mark s
      rw [← List.singleton_append, List.count_append]
    have hdepth := depthAfter_succ_add_count depth c
    -- The character does not close the outermost parenthesis, so one is open behind it.
    have hopen := h [c] (List.cons_prefix_cons.2 ⟨rfl, List.nil_prefix⟩)
    obtain ⟨next, hnext⟩ : ∃ next, depthAfter (depth + 1) c = next + 1 :=
      ⟨depthAfter (depth + 1) c - 1, by omega⟩
    have hnever : ∀ front, front <+: args → front.count ')' ≤ next + front.count '(' := by
      intro front hfront
      have hle := h (c :: front) (List.cons_prefix_cons.2 ⟨rfl, hfront⟩)
      have hcloses := hcount ')' front
      have hopens := hcount '(' front
      omega
    have hlater : after + args.count ')' = next + 1 + args.count '(' := by
      have hcloses := hcount ')' args
      have hopens := hcount '(' args
      omega
    rw [List.cons_append, piecesFrom, if_neg (by simp), hnext, ih hnever hlater]
    rfl

/-- A text is solid if points and colons are the only marks in it. -/
theorem solid_of_forall {s : List Char} (h : ∀ c ∈ s, c = '.' ∨ c = ':' ∨ c ∉ marks) :
    Solid s := by
  induction s with
  | nil => exact fun _ => rfl
  | cons c s ih =>
    obtain ⟨hc, hs⟩ := List.forall_mem_cons.1 h
    have hchar : isDivider c = false ∧ depthAfter 0 c = 0 := by
      rcases hc with rfl | rfl | hc
      · exact ⟨rfl, rfl⟩
      · exact ⟨rfl, rfl⟩
      · simp only [marks, List.mem_cons, List.not_mem_nil, or_false, not_or] at hc
        simp [isDivider, depthAfter, hc]
    intro rest
    rw [List.cons_append, piecesFrom, hchar.1, hchar.2, ih hs]
    rfl

theorem solid_of_unmarked {s : List Char} (h : ∀ c ∈ s, c ∉ marks) : Solid s :=
  solid_of_forall fun c hc => .inr (.inr (h c hc))

theorem Blanks.isBlank_of_mem (blanks : Blanks) : ∀ c ∈ blanks.chars, isBlank c = true :=
  List.all_eq_true.1 blanks.areBlank

theorem not_mem_marks_of_isBlank {c : Char} (h : isBlank c = true) : c ∉ marks := by
  have hmarks : marks.all (fun mark => !isBlank mark) = true := by decide
  intro hc
  have hmark := List.all_eq_true.1 hmarks c hc
  simp [h] at hmark

theorem not_mem_of_isBlank {blanks : List Char} (h : ∀ c ∈ blanks, isBlank c = true) {mark : Char}
    (hmark : mark ∈ marks) : mark ∉ blanks :=
  fun hmem => not_mem_marks_of_isBlank (h mark hmem) hmark

theorem Blanks.unmarked (blanks : Blanks) : ∀ c ∈ blanks.chars, c ∉ marks :=
  fun c hc => not_mem_marks_of_isBlank (blanks.isBlank_of_mem c hc)

theorem Part.not_mem_marks (part : Part) : ∀ c ∈ part.chars, c ∉ marks := by
  intro c hc
  simpa using List.all_eq_true.1 part.unmarked c hc

theorem PaddedPart.unmarked (padded : PaddedPart) : ∀ c ∈ padded.text, c ∉ marks := by
  intro c hc
  rw [text, List.mem_append, List.mem_append] at hc
  rcases hc with (hc | hc) | hc
  · exact padded.before.unmarked c hc
  · exact padded.part.not_mem_marks c hc
  · exact padded.after.unmarked c hc

theorem Arguments.solid (arguments : Arguments) :
    Solid ('(' :: (arguments.chars ++ ')' :: arguments.after.chars)) := by
  have hfront : ∀ front, front <+: arguments.chars → front.count ')' ≤ 0 + front.count '(' := by
    intro front hfront
    have hle := List.all_eq_true.1 arguments.neverOverclosed front ((List.mem_inits _ _).2 hfront)
    rw [Nat.zero_add]
    exact of_decide_eq_true hle
  have hclosed : 1 + arguments.chars.count ')' = 0 + 1 + arguments.chars.count '(' := by
    rw [arguments.closed]
  have hafter := solid_of_unmarked arguments.after.unmarked
  intro rest
  -- Inside one parenthesis is open to the end, and the last one closes it.
  have hinside := piecesFrom_inside hfront hclosed (')' :: (arguments.after.chars ++ rest))
  have hclose : piecesFrom 1 (')' :: (arguments.after.chars ++ rest))
      = (')' :: (arguments.after.chars ++ (piecesFrom 0 rest).1), (piecesFrom 0 rest).2) := by
    have hdepth : depthAfter 1 ')' = 0 := rfl
    rw [piecesFrom, if_neg (by simp), hdepth, hafter]
  have hopen : ∀ s, piecesFrom 0 ('(' :: s) = ('(' :: (piecesFrom 1 s).1, (piecesFrom 1 s).2) :=
    fun s => rfl
  rw [List.cons_append, List.append_assoc, List.cons_append, hopen, hinside, hclose]
  simp

/-! ## The pieces and their names -/

theorem pieces_append_cons {s : List Char} (hs : Solid s) {c : Char} (hc : isDivider c = true)
    (rest : List Char) : pieces (s ++ c :: rest) = s :: pieces rest := by
  have hdivide : piecesFrom 0 (c :: rest)
      = ([], (piecesFrom 0 rest).1 :: (piecesFrom 0 rest).2) := by
    rw [piecesFrom, hc]
    rfl
  rw [pieces, hs, hdivide, List.append_nil, ← pieces]

theorem pieces_of_solid {s : List Char} (hs : Solid s) : pieces s = [s] := by
  have h := hs []
  rw [List.append_nil] at h
  rw [pieces, h]
  simp [piecesFrom]

/-- A piece without a name is passed over. -/
theorem names_append_cons_of_nil {s : List Char} (hs : Solid s) (hname : pieceName s = [])
    {c : Char} (hc : isDivider c = true) (rest : List Char) :
    names (s ++ c :: rest) = names rest := by
  rw [names, pieces_append_cons hs hc, List.map_cons, hname, List.filter_cons_of_neg (by simp)]
  rfl

/-- A piece with a name gives the next name. -/
theorem names_append_cons {s : List Char} (hs : Solid s) (hname : pieceName s ≠ []) {c : Char}
    (hc : isDivider c = true) (rest : List Char) :
    names (s ++ c :: rest) = pieceName s :: names rest := by
  rw [names, pieces_append_cons hs hc, List.map_cons,
    List.filter_cons_of_pos (by simpa using hname)]
  rfl

/-! ## The name in a piece -/

theorem ne_of_not_mem {s : List Char} {mark : Char} (h : mark ∉ s) :
    ∀ c ∈ s, decide (c ≠ mark) = true := by
  intro c hc
  rw [decide_eq_true_eq]
  rintro rfl
  exact h hc

theorem afterColon_of_not_mem {s : List Char} (h : ':' ∉ s) : afterColon s = s := by
  have hdrop : (s ++ []).dropWhile (· ≠ ':') = [] := List.dropWhile_append_of_pos (ne_of_not_mem h)
  rw [List.append_nil] at hdrop
  rw [afterColon, hdrop]

theorem afterColon_append {target : List Char} (h : ':' ∉ target) (s : List Char) :
    afterColon (target ++ ':' :: s) = s := by
  have hdrop : (target ++ ':' :: s).dropWhile (· ≠ ':') = ':' :: s := by
    rw [List.dropWhile_append_of_pos (ne_of_not_mem h)]
    rfl
  rw [afterColon, hdrop]

theorem afterLastPoint_append_of_not_mem (s : List Char) {t : List Char} (h : '.' ∉ t) :
    afterLastPoint (s ++ t) = afterLastPoint s ++ t := by
  have hback : '.' ∉ t.reverse := fun hmem => h (List.mem_reverse.1 hmem)
  rw [afterLastPoint, List.reverse_append, List.takeWhile_append_of_pos (ne_of_not_mem hback),
    List.reverse_append, List.reverse_reverse, afterLastPoint]

theorem afterLastPoint_of_not_mem {s : List Char} (h : '.' ∉ s) : afterLastPoint s = s :=
  afterLastPoint_append_of_not_mem [] h

theorem afterLastPoint_append_point (s : List Char) {t : List Char} (h : '.' ∉ t) :
    afterLastPoint (s ++ '.' :: t) = t := by
  have hpoint : afterLastPoint (s ++ ['.']) = [] := by simp [afterLastPoint]
  rw [← List.singleton_append, ← List.append_assoc, afterLastPoint_append_of_not_mem _ h, hpoint,
    List.nil_append]

/-- Blanks in front do not show in the name behind the last point. -/
theorem trim_afterLastPoint_blanks_append {blanks : List Char}
    (hblanks : ∀ c ∈ blanks, isBlank c = true) (s : List Char) :
    trim (afterLastPoint (blanks ++ s)) = trim (afterLastPoint s) := by
  by_cases hpoint : '.' ∈ s
  · -- The last point is in `s`, so that nothing in front of it is looked at.
    obtain ⟨back, front, hs, hback⟩ := List.eq_append_cons_of_mem (List.mem_reverse.2 hpoint)
    obtain rfl : s = front.reverse ++ '.' :: back.reverse := by
      rw [← List.reverse_reverse s, hs]
      simp
    have hlast : '.' ∉ back.reverse := fun hmem => hback (List.mem_reverse.1 hmem)
    rw [← List.append_assoc, afterLastPoint_append_point _ hlast,
      afterLastPoint_append_point _ hlast]
  · have hnone : '.' ∉ blanks ++ s := by
      rw [List.mem_append, not_or]
      exact ⟨not_mem_of_isBlank hblanks (by decide), hpoint⟩
    rw [afterLastPoint_of_not_mem hnone, afterLastPoint_of_not_mem hpoint,
      Text.trim_blanks_append hblanks]

theorem trim_afterLastPoint_trim (s : List Char) :
    trim (afterLastPoint (trim s)) = trim (afterLastPoint s) := by
  obtain ⟨front, back, hfront, hback, hs⟩ := Text.exists_eq_append_trim s
  have hpoint : '.' ∉ back := not_mem_of_isBlank hback (by decide)
  conv_rhs => rw [hs, afterLastPoint_append_of_not_mem _ hpoint, Text.trim_append_blanks hback,
    trim_afterLastPoint_blanks_append hfront]

/-! ## Names read back -/

namespace Spelling

variable (spelling : Spelling)

theorem lastPart_unmarked : ∀ c ∈ spelling.lastPart, c ∉ marks := by
  have hending : "Attribute".toList.all (fun c => !marks.contains c) = true := by decide
  intro c hc
  rw [lastPart, word, List.mem_append, List.mem_append, List.mem_append] at hc
  rcases hc with (hc | hc | hc) | hc
  · exact spelling.before.unmarked c hc
  · exact spelling.name.not_mem_marks c hc
  · split at hc
    · simpa using List.all_eq_true.1 hending c hc
    · cases hc
  · exact spelling.after.unmarked c hc

/-- Points are the only marks in a spelling. -/
theorem eq_point_or_not_mem_marks : ∀ c ∈ spelling.text, c = '.' ∨ c ∉ marks := by
  intro c hc
  rw [text, qualifiersText, List.mem_append, List.mem_flatMap] at hc
  rcases hc with ⟨qualifier, -, hc⟩ | hc
  · rcases List.mem_append.1 hc with hc | hc
    · exact .inr (qualifier.unmarked c hc)
    · exact .inl (List.mem_singleton.1 hc)
  · exact .inr (spelling.lastPart_unmarked c hc)

theorem not_mem_text {mark : Char} (hmark : mark ∈ marks) (hpoint : mark ≠ '.') :
    mark ∉ spelling.text := by
  intro hmem
  rcases spelling.eq_point_or_not_mem_marks mark hmem with hc | hc
  · exact hpoint hc
  · exact hc hmark

theorem trim_word : trim spelling.word = spelling.word := by
  have hne := spelling.name.ne_nil
  have hlast : "Attribute".toList.getLast? = some 'e' := by decide
  apply Text.trim_of_ends
  · rw [word, List.head?_append_of_ne_nil _ hne]
    exact spelling.name.head?_solid
  · rw [word]
    split
    · rw [List.getLast?_append, hlast, Option.some_or]
      decide
    · rw [List.append_nil]
      exact spelling.name.getLast?_solid

theorem withoutEnding_word : withoutEnding spelling.word = spelling.name.chars := by
  have hending : ending = "Attribute".toList := by decide
  have hpos : 0 < spelling.name.chars.length := List.length_pos_of_ne_nil spelling.name.ne_nil
  rw [withoutEnding, word, hending]
  cases spelling.hasEnding with
  | true =>
    have hsuffix := List.isSuffixOf_iff_suffix.2 (List.suffix_append spelling.name.chars
      "Attribute".toList)
    rw [if_pos rfl, hsuffix, List.length_append, if_pos (by simp [hpos]), Nat.add_sub_cancel,
      List.take_left]
  | false =>
    have hsuffix : "Attribute".toList.isSuffixOf spelling.name.chars = false := by
      rw [Bool.eq_false_iff]
      intro h
      exact spelling.name_bare (List.isSuffixOf_iff_suffix.1 h)
    rw [if_neg Bool.false_ne_true, List.append_nil, hsuffix, if_neg (by simp)]

theorem afterLastPoint_text : afterLastPoint spelling.text = spelling.lastPart := by
  have hlast : '.' ∉ spelling.lastPart := fun hmem =>
    spelling.lastPart_unmarked '.' hmem (by decide)
  rw [text, qualifiersText]
  -- Only the point of the last qualifier counts, so the qualifiers are taken from the back.
  rcases List.eq_nil_or_concat' spelling.qualifiers with hnil | ⟨front, qualifier, hconcat⟩
  · rw [hnil, List.flatMap_nil, List.nil_append, afterLastPoint_of_not_mem hlast]
  · rw [hconcat, List.flatMap_append, List.flatMap_singleton, List.append_assoc,
      List.append_assoc, List.singleton_append, ← List.append_assoc,
      afterLastPoint_append_point _ hlast]

/-- Of a spelling the name alone is left. -/
theorem bareName_text : bareName spelling.text = spelling.name.chars := by
  rw [bareName, trim_afterLastPoint_trim, afterLastPoint_text, lastPart,
    Text.trim_append_blanks spelling.after.isBlank_of_mem,
    Text.trim_blanks_append spelling.before.isBlank_of_mem, trim_word, withoutEnding_word]

end Spelling

theorem pieceName_blanks (blanks : Blanks) : pieceName blanks.chars = [] := by
  have hmark : ∀ {mark : Char}, mark ∈ marks → mark ∉ blanks.chars :=
    not_mem_of_isBlank blanks.isBlank_of_mem
  have hopen : (blanks.chars ++ []).takeWhile (· ≠ '(') = blanks.chars ++ [] :=
    List.takeWhile_append_of_pos (ne_of_not_mem (hmark (by decide)))
  rw [List.append_nil] at hopen
  rw [pieceName, hopen, afterColon_of_not_mem (hmark (by decide)), bareName,
    Text.trim_blanks blanks.isBlank_of_mem]
  rfl

namespace Written

variable (written : Written)

theorem eq_colon_or_not_mem_marks : ∀ c ∈ written.targetText, c = ':' ∨ c ∉ marks := by
  intro c hc
  rw [targetText] at hc
  split at hc
  · rename_i target htarget
    rcases List.mem_append.1 hc with hc | hc
    · exact .inr (target.unmarked c hc)
    · exact .inl (List.mem_singleton.1 hc)
  · cases hc

theorem not_mem_targetText {mark : Char} (hmark : mark ∈ marks) (hcolon : mark ≠ ':') :
    mark ∉ written.targetText := by
  intro hmem
  rcases written.eq_colon_or_not_mem_marks mark hmem with hc | hc
  · exact hcolon hc
  · exact hc hmark

theorem solid_argumentsText : Solid written.argumentsText := by
  rw [argumentsText]
  split
  · exact Arguments.solid _
  · exact fun _ => rfl

theorem solid_text : Solid written.text := by
  have htarget : Solid written.targetText := solid_of_forall fun c hc => by
    rcases written.eq_colon_or_not_mem_marks c hc with hc | hc
    · exact .inr (.inl hc)
    · exact .inr (.inr hc)
  have hspelling : Solid written.spelling.text := solid_of_forall fun c hc => by
    rcases written.spelling.eq_point_or_not_mem_marks c hc with hc | hc
    · exact .inl hc
    · exact .inr (.inr hc)
  exact (htarget.append hspelling).append written.solid_argumentsText

/-- The arguments are cut off. -/
theorem takeWhile_text :
    written.text.takeWhile (· ≠ '(') = written.targetText ++ written.spelling.text := by
  have hopen : '(' ∉ written.targetText ++ written.spelling.text := by
    rw [List.mem_append, not_or]
    exact ⟨written.not_mem_targetText (by decide) (by decide),
      written.spelling.not_mem_text (by decide) (by decide)⟩
  have hstop : written.argumentsText.takeWhile (· ≠ '(') = [] := by
    rw [argumentsText]
    split
    · rfl
    · rfl
  rw [text, List.takeWhile_append_of_pos (ne_of_not_mem hopen), hstop, List.append_nil]

/-- The target is cut off. -/
theorem afterColon_text :
    afterColon (written.targetText ++ written.spelling.text) = written.spelling.text := by
  rw [targetText]
  split
  · rename_i target htarget
    have hcolon : ':' ∉ target.text := fun hmem => target.unmarked _ hmem (by decide)
    rw [List.append_assoc, List.singleton_append, afterColon_append hcolon]
  · rw [List.nil_append]
    apply afterColon_of_not_mem
    exact written.spelling.not_mem_text (by decide) (by decide)

theorem pieceName_text : pieceName written.text = written.name := by
  rw [pieceName, takeWhile_text, afterColon_text, Spelling.bareName_text, name]

end Written

theorem names_written_cons (written : Written) {c : Char} (hc : isDivider c = true)
    (rest : List Char) : names (written.text ++ c :: rest) = written.name :: names rest := by
  have hname : pieceName written.text ≠ [] := by
    rw [written.pieceName_text]
    exact written.spelling.name.ne_nil
  rw [names_append_cons written.solid_text hname hc, written.pieceName_text]

/-- The attributes of a section one after the other. -/
theorem names_attributes (first : Written) (others : List Written) (rest : List Char) :
    names (first.text ++ others.flatMap (fun written => ',' :: written.text) ++ ']' :: rest)
      = first.name :: (others.map Written.name ++ names rest) := by
  induction others generalizing first with
  | nil =>
    rw [List.flatMap_nil, List.append_nil, names_written_cons first rfl, List.map_nil,
      List.nil_append]
  | cons next others ih =>
    rw [List.flatMap_cons, List.cons_append, List.append_assoc, List.cons_append,
      names_written_cons first rfl, ih]
    rfl

/-- The sections one after the other; the blanks behind a section stand in front of the next. -/
theorem names_sections (before : Blanks) (sections : List Section) :
    names (before.chars ++ sections.flatMap Section.text) = sections.flatMap Section.names := by
  have hsolid : ∀ blanks : Blanks, Solid blanks.chars :=
    fun blanks => solid_of_unmarked blanks.unmarked
  induction sections generalizing before with
  | nil =>
    rw [List.flatMap_nil, List.append_nil, names, pieces_of_solid (hsolid before),
      List.map_singleton, pieceName_blanks]
    rfl
  | cons s sections ih =>
    -- The bracket divides the blanks from the first attribute, and blanks have no name.
    have hopen := names_append_cons_of_nil (hsolid before) (pieceName_blanks before) (c := '[') rfl
    rw [List.flatMap_cons, Section.text, List.cons_append, hopen, List.append_assoc,
      List.cons_append, names_attributes, ih]
    rfl

/-- The names of all attributes are found, in order. -/
theorem names_text (t : Sections) : names t.text = t.names :=
  names_sections t.before t.sections

end Recast.Attribute

namespace Recast

open Attribute (Sections Spelling)

theorem Pass.isGenerated_iff {label : Spelling} {t : Sections} {field : FieldDecl}
    (h : field.entity.attributes = String.ofList t.text) :
    isGenerated (String.ofList label.text) field = true ↔ label.name.chars ∈ t.names := by
  have hne : label.name.chars.isEmpty = false := by simpa using label.name.ne_nil
  rw [isGenerated, h, String.toList_ofList, String.toList_ofList, label.bareName_text,
    Attribute.names_text, hne, Bool.not_false, Bool.true_and, List.contains_iff_mem]

/-- The names in a well-formed text of attributes are found in order. The pass that removes
generated fields changes every class, and a field with such a text is removed exactly if the name
that the pass looks for, however it is spelled, is one of these names. -/
theorem generated_iff_mem_names (t : Sections) :
    Attribute.names t.text = t.names ∧
      ∀ (label : Spelling) (space : Namespace),
        let pass := Pass.removeGenerated (String.ofList label.text)
        (pass.run space).result = .ok (space.mapClasses pass.onClass) ∧
          ∀ decl ∈ space.classes, ∀ field ∈ decl.fields,
            field.entity.attributes = String.ofList t.text →
              (field ∉ (pass.onClass decl).fields ↔ label.name.chars ∈ t.names) := by
  refine ⟨Attribute.names_text t, ?_⟩
  intro label space pass
  refine ⟨Pass.result_run_of_fault? rfl, ?_⟩
  intro decl _ field hfield htext
  rw [← Pass.isGenerated_iff htext, Pass.onClass, List.mem_filter, not_and, Bool.not_eq_true',
    Bool.not_eq_false]
  exact ⟨fun h => h hfield, fun h _ => h⟩

/-- Two sections with a target, a qualifier, the ending, blanks, and arguments that hold dividers
and parentheses. -/
def mixedSections : Sections where
  before := ⟨[' '], by decide⟩
  sections := [
    { first :=
        { target := some ⟨⟨[], rfl⟩, { chars := "field".toList }, ⟨[], rfl⟩⟩
          spelling :=
            { qualifiers := [⟨{ chars := [' '] }, { chars := "System".toList }, { chars := [' '] }⟩]
              before := { chars := [] }
              name := { chars := "CompilerGenerated".toList }
              hasEnding := true
              after := { chars := [' '] } }
          arguments := some { chars := "typeof(int[,]), x".toList, after := { chars := [] } } }
      others := [
        { target := none
          spelling :=
            { qualifiers := []
              before := { chars := [' '] }
              name := { chars := "Obsolete".toList }
              hasEnding := false
              after := { chars := [] } }
          arguments := none }]
      after := { chars := ['\n'] } }]

/-- A qualified spelling of the second name, with the ending. -/
def obsoleteSpelling : Spelling where
  qualifiers := [⟨{ chars := [] }, { chars := "A".toList }, { chars := [] }⟩]
  before := { chars := [] }
  name := { chars := "Obsolete".toList }
  hasEnding := true
  after := { chars := [] }

theorem generated_iff_mem_names_mixedSections :
    let field : FieldDecl := { entity := { attributes := String.ofList mixedSections.text } }
    mixedSections.text =
        " [field: System .CompilerGeneratedAttribute (typeof(int[,]), x), Obsolete]\n".toList ∧
      Attribute.names mixedSections.text = ["CompilerGenerated".toList, "Obsolete".toList] ∧
      obsoleteSpelling.text = "A.ObsoleteAttribute".toList ∧
      field ∉ ((Pass.removeGenerated (String.ofList obsoleteSpelling.text)).onClass
        { fields := [field] }).fields := by
  intro field
  obtain ⟨hnames, hpass⟩ := generated_iff_mem_names mixedSections
  obtain ⟨-, hremoved⟩ := hpass obsoleteSpelling { types := [.ofClass { fields := [field] }] }
  refine ⟨by decide +kernel, hnames.trans (by decide +kernel), by decide +kernel, ?_⟩
  refine (hremoved { fields := [field] } ?_ field ?_ rfl).2 (by decide +kernel)
  · exact List.mem_singleton_self _
  · exact List.mem_singleton_self _

end Recast
