import Mathlib.Data.List.TakeWhile
import Recast.Text.Blank
import Recast.TypeRef.Basic

/-!
# Types can be read off their texts

The text of an array shows its element and nothing else. So an array whose qualifier is empty has
the text of the array without a qualifier (`textOf_emptyQualifier`), and this is all that texts
leave open: two well-formed types have the same text if and only if they are the same after such
qualifiers are dropped (`eq_of_textOf_eq`). Without them (`Exact`) the type can be told. Its text
begins with a word, which is its keyword or its qualified name; the word tells both, because a name
has no point and a name without a qualifier is no keyword (`word_inj`). The arguments and the
brackets of arrays follow, and each part ends where a character stands that cannot belong to it.

Since the brackets of an array stand behind its element, an element is compared together with all
brackets behind it: `Determined` speaks of a type with any number of arrays around it, and of any
text behind that a list of arguments can go on with.
-/

set_option autoImplicit false

namespace Recast.TypeRef

open Text (isBlank)

/-! ## Well-formed types -/

/-- The characters that stand between the words of a type. -/
def separators : List Char :=
  ['<', '>', '[', ']', ',']

/-- Whether a character can stand in a word. -/
def isWordChar (c : Char) : Bool :=
  !isBlank c && !separators.contains c

/-- A name is a word without points and grave accents. -/
structure IsName (name : String) : Prop where
  ne_empty : name ≠ ""
  word : ∀ c ∈ name.toList, isWordChar c = true
  no_point : '.' ∉ name.toList
  no_grave : '`' ∉ name.toList

/-- A qualifier is a word. -/
structure IsQualifier (qualifier : String) : Prop where
  ne_empty : qualifier ≠ ""
  word : ∀ c ∈ qualifier.toList, isWordChar c = true

/-- A name with its qualifier; without one it is no keyword. -/
structure IsHead (qualifier : Option String) (name : String) : Prop where
  isName : IsName name
  isQualifier : ∀ q ∈ qualifier, IsQualifier q
  not_keyword : qualifier = none → name ∉ keywords.map Prod.snd

instance (name : String) : Decidable (IsName name) :=
  decidable_of_iff (name ≠ "" ∧ name.toList.all isWordChar = true ∧ '.' ∉ name.toList ∧
      '`' ∉ name.toList)
    ⟨fun ⟨hne, hword, hpoint, hgrave⟩ => ⟨hne, List.all_eq_true.1 hword, hpoint, hgrave⟩,
      fun ⟨hne, hword, hpoint, hgrave⟩ => ⟨hne, List.all_eq_true.2 hword, hpoint, hgrave⟩⟩

instance (qualifier : String) : Decidable (IsQualifier qualifier) :=
  decidable_of_iff (qualifier ≠ "" ∧ qualifier.toList.all isWordChar = true)
    ⟨fun ⟨hne, hword⟩ => ⟨hne, List.all_eq_true.1 hword⟩,
      fun ⟨hne, hword⟩ => ⟨hne, List.all_eq_true.2 hword⟩⟩

instance (qualifier : Option String) (name : String) : Decidable (IsHead qualifier name) :=
  decidable_of_iff (IsName name ∧ (∀ q ∈ qualifier, IsQualifier q) ∧
      (qualifier = none → name ∉ keywords.map Prod.snd))
    ⟨fun ⟨hname, hqualifier, hkeyword⟩ => ⟨hname, hqualifier, hkeyword⟩,
      fun ⟨hname, hqualifier, hkeyword⟩ => ⟨hname, hqualifier, hkeyword⟩⟩

/-- A well-formed type that is not passed by reference. An array holds its element and nothing else,
but for a qualifier that may be there and be empty. -/
inductive Plain : TypeRef → Prop
  | array {qualifier : Option String} {element : TypeRef} :
      (∀ q ∈ qualifier, q = "") → Plain element → Plain { qualifier, element := some element }
  | named {qualifier : Option String} {name : String} {args : List TypeRef} :
      IsHead qualifier name → (∀ arg ∈ args, Plain arg) → Plain { qualifier, name, args }

/-- A well-formed type; it may be passed by reference, but nothing in it is. -/
def WellFormed (t : TypeRef) : Prop :=
  Plain { t with passing := none }

/-- A well-formed type in which arrays have no qualifiers at all. -/
inductive Exact : TypeRef → Prop
  | array {element : TypeRef} : Exact element → Exact (arrayOf element)
  | named {qualifier : Option String} {name : String} {args : List TypeRef} :
      IsHead qualifier name → (∀ arg ∈ args, Exact arg) → Exact { qualifier, name, args }

/-! ## Words -/

/-- A text is cut in one way where the characters that pass a test end. -/
theorem append_inj_of_span {test : Char → Bool} {one other rest otherRest : List Char}
    (hone : ∀ c ∈ one, test c = true) (hother : ∀ c ∈ other, test c = true)
    (hrest : ∀ c ∈ rest.head?, test c = false) (hotherRest : ∀ c ∈ otherRest.head?, test c = false)
    (h : one ++ rest = other ++ otherRest) : one = other ∧ rest = otherRest := by
  have hspan : ∀ {word rest : List Char}, (∀ c ∈ word, test c = true) →
      (∀ c ∈ rest.head?, test c = false) → (word ++ rest).takeWhile test = word := by
    intro word rest hword hrest
    rw [List.takeWhile_append_of_pos hword]
    cases rest with
    | nil => simp
    | cons c rest => simp [hrest c rfl]
  have heq : one = other := by
    rw [← hspan hone hrest, h, hspan hother hotherRest]
  subst heq
  exact ⟨rfl, List.append_cancel_left h⟩

/-- The word at the front of the text of a named type. -/
def word (qualifier : Option String) (name : String) (args : List TypeRef) : String :=
  (keyword? qualifier name args).getD (qualifierText qualifier ++ bareName name)

/-- Only built-in types without arguments have keywords. -/
theorem of_keyword?_eq_some {qualifier : Option String} {name keyword : String}
    {args : List TypeRef} (h : keyword? qualifier name args = some keyword) :
    qualifier = some "System" ∧ args = [] ∧ (name, keyword) ∈ keywords := by
  rw [keyword?] at h
  split at h
  · rename_i hcond
    simp only [Bool.and_eq_true, decide_eq_true_eq, List.isEmpty_iff] at hcond
    obtain ⟨front, back, htable, -⟩ := List.lookup_eq_some_iff.1 h
    exact ⟨hcond.1, hcond.2, by rw [htable]; simp⟩
  · cases h

/-- No two built-in types have one keyword. -/
theorem keyword_inj : ∀ one ∈ keywords, ∀ other ∈ keywords, one.2 = other.2 → one.1 = other.1 := by
  decide +kernel

theorem keyword_chars : ∀ entry ∈ keywords, ∀ c ∈ entry.2.toList,
    isWordChar c = true ∧ c ≠ '.' := by
  have hall : keywords.all (fun entry => entry.2.toList.all fun c => isWordChar c && c != '.')
      = true := by
    decide +kernel
  intro entry hentry c hc
  simpa using List.all_eq_true.1 (List.all_eq_true.1 hall entry hentry) c hc

/-- A name has no grave accent at which it would be cut. -/
theorem IsName.bareName_eq {name : String} (h : IsName name) : bareName name = name := by
  have hall : ∀ c ∈ name.toList, decide (c ≠ '`') = true := by
    intro c hc
    simp only [ne_eq, decide_eq_true_eq]
    rintro rfl
    exact h.no_grave hc
  rw [bareName, List.takeWhile_eq_self_iff.2 hall, String.ofList_toList]

/-- The text of a qualifier with its point, if there is one. -/
theorem toList_qualifierText {qualifier : Option String}
    (h : ∀ q ∈ qualifier, IsQualifier q) :
    (qualifierText qualifier).toList = (qualifier.map fun q => q.toList ++ ['.']).getD [] := by
  cases qualifier with
  | none => rfl
  | some q => simp [qualifierText, (h q rfl).ne_empty]

section Heads

variable {qualifier otherQualifier : Option String} {name otherName : String}
variable {args otherArgs : List TypeRef}

theorem isWordChar_of_mem_word (h : IsHead qualifier name) :
    ∀ c ∈ (word qualifier name args).toList, isWordChar c = true := by
  intro c hc
  rw [word] at hc
  cases hkeyword : keyword? qualifier name args with
  | some keyword =>
    rw [hkeyword, Option.getD_some] at hc
    exact (keyword_chars _ (of_keyword?_eq_some hkeyword).2.2 c hc).1
  | none =>
    rw [hkeyword, Option.getD_none, String.toList_append, toList_qualifierText h.isQualifier,
      h.isName.bareName_eq, List.mem_append] at hc
    rcases hc with hc | hc
    · cases qualifier with
      | none => simp at hc
      | some q =>
        simp only [Option.map_some, Option.getD_some, List.mem_append, List.mem_singleton] at hc
        rcases hc with hc | rfl
        · exact (h.isQualifier q rfl).word c hc
        · decide
    · exact h.isName.word c hc

/-- A qualified name is no keyword. -/
theorem ne_keyword (h : IsHead qualifier name) {entry : String × String}
    (hentry : entry ∈ keywords) : qualifierText qualifier ++ bareName name ≠ entry.2 := by
  intro heq
  cases qualifier with
  | none =>
    have hname : name = entry.2 := by simpa [qualifierText, h.isName.bareName_eq] using heq
    exact h.not_keyword rfl (hname ▸ List.mem_map_of_mem hentry)
  | some q =>
    have hpoint : '.' ∈ entry.2.toList := by
      rw [← heq, String.toList_append, toList_qualifierText h.isQualifier]
      simp
    exact (keyword_chars entry hentry '.' hpoint).2 rfl

/-- A name has no point, so its qualifier is what stands before the last one. -/
theorem qualifiedName_inj (h : IsHead qualifier name) (hother : IsHead otherQualifier otherName)
    (heq : qualifierText qualifier ++ bareName name
      = qualifierText otherQualifier ++ bareName otherName) :
    qualifier = otherQualifier ∧ name = otherName := by
  rw [h.isName.bareName_eq, hother.isName.bareName_eq, ← String.toList_inj, String.toList_append,
    String.toList_append, toList_qualifierText h.isQualifier,
    toList_qualifierText hother.isQualifier] at heq
  -- Seen from behind, a name goes on up to the first point.
  have hreverse := congrArg List.reverse heq
  simp only [List.reverse_append] at hreverse
  have hname : ∀ {n : String}, IsName n → ∀ c ∈ n.toList.reverse, decide (c ≠ '.') = true := by
    intro n hn c hc
    simp only [ne_eq, decide_eq_true_eq]
    rintro rfl
    exact hn.no_point (List.mem_reverse.1 hc)
  have hpoint : ∀ q : Option String,
      ∀ c ∈ ((q.map fun q => q.toList ++ ['.']).getD []).reverse.head?,
        decide (c ≠ '.') = false := by
    intro q c hc
    cases q <;> simp at hc
    simp [← hc]
  obtain ⟨hnames, hqualifiers⟩ := append_inj_of_span (hname h.isName) (hname hother.isName)
    (hpoint qualifier) (hpoint otherQualifier) hreverse
  refine ⟨?_, String.toList_inj.1 (List.reverse_inj.1 hnames)⟩
  rw [List.reverse_inj] at hqualifiers
  cases qualifier <;> cases otherQualifier <;> simp at hqualifiers ⊢
  exact String.toList_inj.1 hqualifiers

/-- The word of a named type tells its name and qualifier. -/
theorem word_inj (h : IsHead qualifier name) (hother : IsHead otherQualifier otherName)
    (heq : word qualifier name args = word otherQualifier otherName otherArgs) :
    qualifier = otherQualifier ∧ name = otherName := by
  rw [word, word] at heq
  cases hone : keyword? qualifier name args with
  | some keyword =>
    obtain ⟨hq, -, hmem⟩ := of_keyword?_eq_some hone
    cases htwo : keyword? otherQualifier otherName otherArgs with
    | some otherKeyword =>
      obtain ⟨hotherQ, -, hotherMem⟩ := of_keyword?_eq_some htwo
      rw [hone, htwo] at heq
      exact ⟨by rw [hq, hotherQ], keyword_inj _ hmem _ hotherMem heq⟩
    | none =>
      rw [hone, htwo] at heq
      exact absurd heq.symm (ne_keyword hother hmem)
  | none =>
    cases htwo : keyword? otherQualifier otherName otherArgs with
    | some otherKeyword =>
      rw [hone, htwo] at heq
      exact absurd heq (ne_keyword h (of_keyword?_eq_some htwo).2.2)
    | none =>
      rw [hone, htwo] at heq
      exact qualifiedName_inj h hother heq

end Heads

/-! ## Arguments and arrays -/

/-- The array of arrays of some type, in so many dimensions. -/
def arrays : Nat → TypeRef → TypeRef
  | 0, t => t
  | n + 1, t => arrays n (arrayOf t)

/-- So many pairs of brackets. -/
def brackets : Nat → List Char
  | 0 => []
  | n + 1 => '[' :: ']' :: brackets n

theorem arrayOf_arrays (n : Nat) (t : TypeRef) : arrayOf (arrays n t) = arrays n (arrayOf t) := by
  induction n generalizing t with
  | zero => rfl
  | succ n ih => exact ih (arrayOf t)

theorem plainText_arrayOf (t : TypeRef) : (arrayOf t).plainText = t.plainText ++ "[]" := by
  rw [arrayOf, plainText]

/-- The brackets of all arrays stand behind the text of the innermost element. -/
theorem toList_plainText_arrays (n : Nat) (t : TypeRef) :
    (arrays n t).plainText.toList = t.plainText.toList ++ brackets n := by
  induction n generalizing t with
  | zero => simp [arrays, brackets]
  | succ n ih => simp [arrays, brackets, ih, plainText_arrayOf]

/-- Such a type is a named one under some number of arrays. -/
theorem Exact.exists_arrays {t : TypeRef} (h : Exact t) :
    ∃ n qualifier name args, t = arrays n { qualifier, name, args } ∧ IsHead qualifier name ∧
      ∀ arg ∈ args, Exact arg := by
  induction h with
  | array _ ih =>
    obtain ⟨n, qualifier, name, args, rfl, hhead, hargs⟩ := ih
    exact ⟨n + 1, qualifier, name, args, arrayOf_arrays n _, hhead, hargs⟩
  | @named qualifier name args hhead hargs => exact ⟨0, qualifier, name, args, rfl, hhead, hargs⟩

/-- A keyword stands alone, so it may as well be followed by no arguments. -/
theorem plainText_named (qualifier : Option String) (name : String) (args : List TypeRef) :
    plainText { qualifier, name, args }
      = word qualifier name args ++ argumentsText (plainTexts args) := by
  rw [plainText, word]
  cases hkeyword : keyword? qualifier name args with
  | none => rfl
  | some keyword =>
    obtain ⟨-, rfl, -⟩ := of_keyword?_eq_some hkeyword
    simp [plainTexts, argumentsText]

/-- The texts of all arguments behind the first one. -/
def laterTexts (args : List TypeRef) : List Char :=
  args.flatMap fun arg => ',' :: ' ' :: arg.plainText.toList

/-- The first argument stands behind the bracket, and each later one behind a comma. -/
theorem toList_argumentsText_cons (arg : TypeRef) (args : List TypeRef) :
    (argumentsText (plainTexts (arg :: args))).toList
      = '<' :: (arg.plainText.toList ++ (laterTexts args ++ ['>'])) := by
  have hlater : (", ".intercalate (plainTexts (arg :: args))).toList
      = arg.plainText.toList ++ laterTexts args := by
    induction args generalizing arg with
    | nil => simp [plainTexts, laterTexts]
    | cons next args ih =>
      rw [plainTexts, plainTexts, String.intercalate_cons_cons, ← plainTexts, String.toList_append,
        ih]
      simp [laterTexts]
  rw [plainTexts, argumentsText, ← plainTexts]
  · simp [hlater]
  · simp

/-! ## Reading a type -/

/-- What can follow an argument: nothing, the next argument, or the end of all. -/
def Ends (rest : List Char) : Prop :=
  ∀ c ∈ rest.head?, c = ',' ∨ c = '>'

/-- Brackets end where a character stands that is none of them. -/
theorem brackets_inj {n m : Nat} {rest otherRest : List Char} (hrest : Ends rest)
    (hotherRest : Ends otherRest) (h : brackets n ++ rest = brackets m ++ otherRest) :
    n = m ∧ rest = otherRest := by
  induction n generalizing m with
  | zero =>
    cases m with
    | zero => exact ⟨rfl, h⟩
    | succ m =>
      obtain rfl : rest = '[' :: ']' :: (brackets m ++ otherRest) := h
      have := hrest '[' rfl
      simp at this
  | succ n ih =>
    cases m with
    | zero =>
      obtain rfl : '[' :: ']' :: (brackets n ++ rest) = otherRest := h
      have := hotherRest '[' rfl
      simp at this
    | succ m =>
      obtain ⟨rfl, hrests⟩ := ih (List.cons.inj (List.cons.inj h).2).2
      exact ⟨rfl, hrests⟩

/-- A type can be told, with all arrays around it, from its text and whatever follows. -/
def Determined (t : TypeRef) : Prop :=
  ∀ (n : Nat) (u : TypeRef) (rest otherRest : List Char), Exact u → Ends rest → Ends otherRest →
    (arrays n t).plainText.toList ++ rest = u.plainText.toList ++ otherRest →
    arrays n t = u ∧ rest = otherRest

theorem ends_laterTexts (args : List TypeRef) (rest : List Char) :
    Ends (laterTexts args ++ '>' :: rest) := by
  intro c hc
  cases args with
  | nil => exact .inr (Option.some.inj hc).symm
  | cons arg args => exact .inl (Option.some.inj hc).symm

/-- A list of arguments can be told, if each argument can. -/
theorem laterTexts_inj {args otherArgs : List TypeRef} {rest otherRest : List Char}
    (hargs : ∀ arg ∈ args, Determined arg) (hother : ∀ arg ∈ otherArgs, Exact arg)
    (h : laterTexts args ++ '>' :: rest = laterTexts otherArgs ++ '>' :: otherRest) :
    args = otherArgs ∧ rest = otherRest := by
  induction args generalizing otherArgs with
  | nil =>
    cases otherArgs with
    | nil => exact ⟨rfl, (List.cons.inj h).2⟩
    | cons other otherArgs => simp [laterTexts] at h
  | cons arg args ih =>
    cases otherArgs with
    | nil => simp [laterTexts] at h
    | cons other otherArgs =>
      obtain ⟨harg, hlaterArgs⟩ := List.forall_mem_cons.1 hargs
      obtain ⟨hotherArg, hotherLater⟩ := List.forall_mem_cons.1 hother
      simp only [laterTexts, List.flatMap_cons, List.cons_append, List.append_assoc,
        List.cons.injEq, true_and] at h
      obtain ⟨rfl, hlater⟩ := harg 0 other _ _ hotherArg (ends_laterTexts args rest)
        (ends_laterTexts otherArgs otherRest) h
      obtain ⟨rfl, hrests⟩ := ih hlaterArgs hotherLater hlater
      exact ⟨rfl, hrests⟩

/-- What follows the word of a named type: its arguments, the brackets and the rest. -/
def afterWord (args : List TypeRef) (n : Nat) (rest : List Char) : List Char :=
  (argumentsText (plainTexts args)).toList ++ (brackets n ++ rest)

theorem mem_separators_of_head?_afterWord {args : List TypeRef} {n : Nat} {rest : List Char}
    (hrest : Ends rest) : ∀ c ∈ (afterWord args n rest).head?, c ∈ separators := by
  intro c hc
  cases args with
  | cons arg args =>
    rw [afterWord, toList_argumentsText_cons] at hc
    obtain rfl : '<' = c := Option.some.inj hc
    decide
  | nil =>
    cases n with
    | succ n =>
      obtain rfl : '[' = c := Option.some.inj hc
      decide
    | zero =>
      rcases hrest c hc with rfl | rfl <;> decide

theorem isWordChar_of_mem_separators {c : Char} (h : c ∈ separators) : isWordChar c = false := by
  simp [isWordChar, h]

theorem toList_plainText_arrays_named (n : Nat) (qualifier : Option String) (name : String)
    (args : List TypeRef) (rest : List Char) :
    (arrays n { qualifier, name, args }).plainText.toList ++ rest
      = (word qualifier name args).toList ++ afterWord args n rest := by
  simp [toList_plainText_arrays, plainText_named, afterWord]

/-- What follows the word tells the arguments, the number of arrays and the rest. -/
theorem afterWord_inj {args otherArgs : List TypeRef} {n m : Nat} {rest otherRest : List Char}
    (hargs : ∀ arg ∈ args, Determined arg) (hother : ∀ arg ∈ otherArgs, Exact arg)
    (hrest : Ends rest) (hotherRest : Ends otherRest)
    (h : afterWord args n rest = afterWord otherArgs m otherRest) :
    args = otherArgs ∧ n = m ∧ rest = otherRest := by
  -- Without arguments the first character is none of theirs.
  have hnone : ∀ {k : Nat} {text : List Char}, Ends text →
      (brackets k ++ text).head? ≠ some '<' := by
    intro k text htext hhead
    cases k with
    | succ k => simp [brackets] at hhead
    | zero =>
      have := htext '<' hhead
      simp at this
  cases args with
  | nil =>
    cases otherArgs with
    | nil =>
      obtain ⟨hn, hrests⟩ := brackets_inj hrest hotherRest h
      exact ⟨rfl, hn, hrests⟩
    | cons other otherArgs =>
      rw [afterWord, afterWord, toList_argumentsText_cons] at h
      exact absurd (congrArg List.head? h) (hnone hrest)
  | cons arg args =>
    cases otherArgs with
    | nil =>
      rw [afterWord, afterWord, toList_argumentsText_cons] at h
      exact absurd (congrArg List.head? h).symm (hnone hotherRest)
    | cons other otherArgs =>
      -- With a comma in front of the first argument, too, both lists are texts of later arguments.
      have hlists : laterTexts (arg :: args) ++ '>' :: (brackets n ++ rest)
          = laterTexts (other :: otherArgs) ++ '>' :: (brackets m ++ otherRest) := by
        rw [afterWord, afterWord, toList_argumentsText_cons, toList_argumentsText_cons] at h
        simpa [laterTexts] using h
      obtain ⟨hargsEq, hbrackets⟩ := laterTexts_inj hargs hother hlists
      exact ⟨hargsEq, brackets_inj hrest hotherRest hbrackets⟩

/-- Every such type can be told from its text. -/
theorem Exact.determined {t : TypeRef} (h : Exact t) : Determined t := by
  induction h with
  | array _ ih =>
    intro n
    exact ih (n + 1)
  | @named qualifier name args hhead _ ih =>
    intro n u rest otherRest hu hrest hotherRest heq
    obtain ⟨m, otherQualifier, otherName, otherArgs, rfl, hotherHead, hotherArgs⟩ :=
      hu.exists_arrays
    rw [toList_plainText_arrays_named, toList_plainText_arrays_named] at heq
    have hends : ∀ {args n rest}, Ends rest →
        ∀ c ∈ (afterWord args n rest).head?, isWordChar c = false := fun hrest c hc =>
      isWordChar_of_mem_separators (mem_separators_of_head?_afterWord hrest c hc)
    obtain ⟨hword, hafter⟩ := append_inj_of_span (isWordChar_of_mem_word hhead)
      (isWordChar_of_mem_word hotherHead) (hends hrest) (hends hotherRest) heq
    obtain ⟨rfl, rfl, hrests⟩ := afterWord_inj ih hotherArgs hrest hotherRest hafter
    obtain ⟨rfl, rfl⟩ := word_inj hhead hotherHead (String.toList_inj.1 hword)
    exact ⟨rfl, hrests⟩

theorem Exact.eq_of_plainText_eq {t u : TypeRef} (ht : Exact t) (hu : Exact u)
    (h : t.plainText = u.plainText) : t = u := by
  have hends : Ends [] := fun c hc => by cases hc
  exact (ht.determined 0 u [] [] hu hends hends (by rw [arrays, h])).1

/-! ## Trimming -/

mutual

/-- A type without what its text does not show: of every array the element is left. -/
def trimmed : TypeRef → TypeRef
  | ⟨_, _, _, some element, passing⟩ => { element := some element.trimmed, passing }
  | ⟨qualifier, name, args, none, passing⟩ => { qualifier, name, args := trimmedAll args, passing }

/-- The trimmed types of several ones. -/
def trimmedAll : List TypeRef → List TypeRef
  | [] => []
  | t :: ts => t.trimmed :: trimmedAll ts

end

theorem mem_trimmedAll_iff {ts : List TypeRef} {t : TypeRef} :
    t ∈ trimmedAll ts ↔ ∃ u ∈ ts, u.trimmed = t := by
  induction ts with
  | nil => simp [trimmedAll]
  | cons u ts ih => simp [trimmedAll, ih, eq_comm]

theorem keyword?_trimmedAll (qualifier : Option String) (name : String) (args : List TypeRef) :
    keyword? qualifier name (trimmedAll args) = keyword? qualifier name args := by
  cases args <;> rfl

mutual

/-- Trimming does not show. -/
theorem plainText_trimmed : ∀ t : TypeRef, t.trimmed.plainText = t.plainText
  | ⟨_, _, _, some element, _⟩ => by
    rw [trimmed, plainText, plainText, plainText_trimmed element]
  | ⟨qualifier, name, args, none, _⟩ => by
    rw [trimmed, plainText, plainText, keyword?_trimmedAll, plainTexts_trimmedAll args]

theorem plainTexts_trimmedAll : ∀ ts : List TypeRef, plainTexts (trimmedAll ts) = plainTexts ts
  | [] => rfl
  | t :: ts => by
    rw [trimmedAll, plainTexts, plainTexts, plainText_trimmed t, plainTexts_trimmedAll ts]

end

theorem trimmed_passing (t : TypeRef) (passing : Option Passing) :
    { t with passing }.trimmed = { t.trimmed with passing } := by
  obtain ⟨qualifier, name, args, element, _⟩ := t
  cases element <;> simp [trimmed]

theorem passing_trimmed (t : TypeRef) : t.trimmed.passing = t.passing := by
  obtain ⟨qualifier, name, args, element, _⟩ := t
  cases element <;> simp [trimmed]

theorem text_trimmed (t : TypeRef) : t.trimmed.text = t.text := by
  rw [text, text, passing_trimmed, plainText_trimmed]

/-- Trimming leaves no qualifier on an array. -/
theorem Plain.exact_trimmed {t : TypeRef} (h : Plain t) : Exact t.trimmed := by
  induction h with
  | array _ _ ih =>
    rw [trimmed]
    exact .array ih
  | named hhead _ ih =>
    rw [trimmed]
    refine .named hhead ?_
    intro arg harg
    obtain ⟨origin, horigin, rfl⟩ := mem_trimmedAll_iff.1 harg
    exact ih origin horigin

theorem Plain.trimmed_eq_of_plainText_eq {t u : TypeRef} (ht : Plain t) (hu : Plain u)
    (h : t.plainText = u.plainText) : t.trimmed = u.trimmed :=
  ht.exact_trimmed.eq_of_plainText_eq hu.exact_trimmed
    (by rw [plainText_trimmed, plainText_trimmed, h])

/-! ## Passing -/

theorem plainText_passing (t : TypeRef) (passing : Option Passing) :
    { t with passing }.plainText = t.plainText := by
  obtain ⟨qualifier, name, args, element, _⟩ := t
  cases element with
  | none => simp [plainText]
  | some element => simp [plainText]

/-- The first word of a text and what follows it. -/
structure BeginsWith (text : String) (first rest : List Char) : Prop where
  toList_eq : text.toList = first ++ rest
  isWord : ∀ c ∈ first, isWordChar c = true
  head?_rest : ∀ c ∈ rest.head?, isWordChar c = false

theorem BeginsWith.unique {text : String} {one other rest otherRest : List Char}
    (h : BeginsWith text one rest) (hother : BeginsWith text other otherRest) :
    one = other ∧ rest = otherRest :=
  append_inj_of_span h.isWord hother.isWord h.head?_rest hother.head?_rest
    (h.toList_eq.symm.trans hother.toList_eq)

/-- No blank follows the first word of a type that is not passed by reference. -/
theorem exists_beginsWith_plainText {t : TypeRef} (h : Plain t) :
    ∃ first rest, BeginsWith t.plainText first rest ∧ rest.head? ≠ some ' ' := by
  obtain ⟨n, qualifier, name, args, htrimmed, hhead, -⟩ := h.exact_trimmed.exists_arrays
  rw [← plainText_trimmed, htrimmed]
  have hends : Ends [] := fun c hc => by cases hc
  have hrest := @mem_separators_of_head?_afterWord args n [] hends
  have htext := toList_plainText_arrays_named n qualifier name args []
  rw [List.append_nil] at htext
  refine ⟨_, _, ⟨htext, isWordChar_of_mem_word hhead, ?_⟩, ?_⟩
  · intro c hc
    exact isWordChar_of_mem_separators (hrest c hc)
  · intro hblank
    exact absurd (hrest ' ' hblank) (by decide)

/-- The word that stands before a blank at the front of a text, if it begins so. -/
def lead : Option TypeRef → Option String
  | none => some "NULL"
  | some t => t.passing.map Passing.label

/-- A blank behind the first word tells the words that are no part of a type. -/
theorem exists_beginsWith_textOf {t : Option TypeRef} (h : ∀ type ∈ t, type.WellFormed) :
    ∃ first rest, BeginsWith (textOf t) first rest ∧
      lead t = if rest.head? = some ' ' then some (String.ofList first) else none := by
  have hblank : ∀ c ∈ some ' ', isWordChar c = false := by
    intro c hc
    obtain rfl : ' ' = c := Option.some.inj hc
    decide
  cases t with
  | none =>
    have hrest : " TYPE".toList.head? = some ' ' := by decide +kernel
    have hbegins : BeginsWith unresolvedText "NULL".toList " TYPE".toList :=
      ⟨by decide +kernel, List.all_eq_true.1 (by decide +kernel), by rw [hrest]; exact hblank⟩
    exact ⟨"NULL".toList, " TYPE".toList, hbegins, by decide +kernel⟩
  | some t =>
    cases hpassing : t.passing with
    | none =>
      obtain ⟨first, rest, hfirst, hrest⟩ := exists_beginsWith_plainText (h t rfl)
      rw [plainText_passing] at hfirst
      refine ⟨first, rest, ?_, ?_⟩
      · rw [textOf, text, hpassing]
        exact hfirst
      · rw [if_neg hrest, lead, hpassing]
        rfl
    | some passing =>
      refine ⟨passing.label.toList, ' ' :: t.plainText.toList, ⟨?_, ?_, hblank⟩, ?_⟩
      · simp [textOf, text, hpassing]
      · cases passing <;> exact List.all_eq_true.1 (by decide +kernel)
      · simp [lead, hpassing]

theorem lead_eq_of_textOf_eq {t u : Option TypeRef} (ht : ∀ type ∈ t, type.WellFormed)
    (hu : ∀ type ∈ u, type.WellFormed) (h : textOf t = textOf u) : lead t = lead u := by
  obtain ⟨first, rest, hfirst, htlead⟩ := exists_beginsWith_textOf ht
  obtain ⟨otherFirst, otherRest, hother, hulead⟩ := exists_beginsWith_textOf hu
  rw [h] at hfirst
  obtain ⟨rfl, rfl⟩ := hfirst.unique hother
  rw [htlead, hulead]

theorem lead_some_ne (t : TypeRef) : lead (some t) ≠ lead none := by
  rw [lead, lead]
  cases t.passing with
  | none => simp
  | some passing => cases passing <;> decide

theorem eq_of_passing_eq {t u : TypeRef}
    (h : { t with passing := none } = ({ u with passing := none } : TypeRef))
    (hpassing : t.passing = u.passing) : t = u := by
  obtain ⟨qualifier, name, args, element, passing⟩ := t
  obtain ⟨otherQualifier, otherName, otherArgs, otherElement, otherPassing⟩ := u
  simp only [TypeRef.mk.injEq, and_true] at h hpassing ⊢
  exact ⟨h.1, h.2.1, h.2.2.1, h.2.2.2, hpassing⟩

theorem WellFormed.trimmed_eq_of_text_eq {t u : TypeRef} (ht : t.WellFormed) (hu : u.WellFormed)
    (hpassing : t.passing = u.passing) (h : t.text = u.text) : t.trimmed = u.trimmed := by
  have hplain : t.plainText = u.plainText := by
    rw [text, text, ← hpassing] at h
    cases hp : t.passing with
    | none =>
      rw [hp] at h
      exact h
    | some passing =>
      rw [hp] at h
      exact (String.append_right_inj _).1 h
  have heq := Plain.trimmed_eq_of_plainText_eq ht hu
    (by rw [plainText_passing, plainText_passing, hplain])
  rw [trimmed_passing, trimmed_passing] at heq
  exact eq_of_passing_eq heq (by rw [passing_trimmed, passing_trimmed, hpassing])

theorem label_injective : Function.Injective Passing.label := by
  intro one other h
  cases one <;> cases other
  · rfl
  · exact absurd h (by decide)
  · exact absurd h (by decide)
  · rfl

/-- Well-formed types with the same text are the same after trimming. -/
theorem trimmed_eq_of_textOf_eq {t u : Option TypeRef} (ht : ∀ type ∈ t, type.WellFormed)
    (hu : ∀ type ∈ u, type.WellFormed) (h : textOf t = textOf u) :
    t.map trimmed = u.map trimmed := by
  have hlead := lead_eq_of_textOf_eq ht hu h
  cases t with
  | none =>
    cases u with
    | none => rfl
    | some u => exact absurd hlead.symm (lead_some_ne u)
  | some t =>
    cases u with
    | none => exact absurd hlead (lead_some_ne t)
    | some u =>
      have hpassing : t.passing = u.passing := Option.map_injective label_injective hlead
      exact congrArg some (WellFormed.trimmed_eq_of_text_eq (ht t rfl) (hu u rfl) hpassing h)

theorem textOf_map_trimmed (t : Option TypeRef) : textOf (t.map trimmed) = textOf t := by
  cases t with
  | none => rfl
  | some t => exact text_trimmed t

theorem map_trimmed_eq {t : Option TypeRef} (h : ∀ type ∈ t, type.trimmed = type) :
    t.map trimmed = t := by
  cases t with
  | none => rfl
  | some type => exact congrArg some (h type rfl)

/-- The text of a well-formed type tells the type, but for empty qualifiers on arrays: two types
have the same text if and only if they are the same without those, so that the text tells a type
that has none of them. It is never the text that stands for a type that could not be found. -/
theorem eq_of_textOf_eq (t u : Option TypeRef) (ht : ∀ type ∈ t, type.WellFormed)
    (hu : ∀ type ∈ u, type.WellFormed) :
    (textOf t = textOf u ↔ t.map trimmed = u.map trimmed) ∧
      ((∀ type ∈ t, type.trimmed = type) → (∀ type ∈ u, type.trimmed = type) →
        textOf t = textOf u → t = u) ∧
      ∀ type ∈ t, type.text ≠ unresolvedText := by
  refine ⟨⟨trimmed_eq_of_textOf_eq ht hu, ?_⟩, ?_, ?_⟩
  · intro h
    rw [← textOf_map_trimmed t, h, textOf_map_trimmed]
  · intro htrimmed hutrimmed h
    have heq := trimmed_eq_of_textOf_eq ht hu h
    rwa [map_trimmed_eq htrimmed, map_trimmed_eq hutrimmed] at heq
  · rintro type rfl hunresolved
    have hnone := trimmed_eq_of_textOf_eq ht (u := none) (by simp) hunresolved
    cases hnone

/-- A list of arrays of numbers, passed by reference. -/
def listOfArrays : TypeRef where
  qualifier := some "System.Collections.Generic"
  name := "List"
  args := [arrayOf { qualifier := some "System", name := "Int32" }, { name := "Int32" }]
  passing := some .ref

/-- An array of lists of numbers, passed by reference. -/
def arrayOfLists : TypeRef where
  element := some
    { qualifier := some "System.Collections.Generic", name := "List",
      args := [{ qualifier := some "System", name := "Int32" }, { name := "Int32" }] }
  passing := some .ref

theorem textOf_listOfArrays_ne :
    listOfArrays.WellFormed ∧ arrayOfLists.WellFormed ∧
      textOf (some listOfArrays) ≠ textOf (some arrayOfLists) ∧
      listOfArrays.text ≠ unresolvedText := by
  have hint : Plain { qualifier := some "System", name := "Int32" } :=
    .named (by decide +kernel) (by simp)
  have hname : Plain { name := "Int32" } := .named (by decide +kernel) (by simp)
  have hlist : IsHead (some "System.Collections.Generic") "List" := by decide +kernel
  have hempty : ∀ q ∈ (none : Option String), q = "" := by simp
  have hone : listOfArrays.WellFormed :=
    .named hlist (List.forall_mem_cons.2 ⟨.array hempty hint, List.forall_mem_singleton.2 hname⟩)
  have htwo : arrayOfLists.WellFormed := .array hempty (.named hlist (by simp [hint, hname]))
  obtain ⟨-, hsame, hresolved⟩ := eq_of_textOf_eq (some listOfArrays) (some arrayOfLists)
    (by rintro _ ⟨⟩; exact hone) (by rintro _ ⟨⟩; exact htwo)
  refine ⟨hone, htwo, ?_, hresolved listOfArrays rfl⟩
  intro htext
  have heq := hsame (by rintro _ ⟨⟩; rfl) (by rintro _ ⟨⟩; rfl) htext
  have harray := congrArg (Option.map isArray) heq
  exact absurd harray (by decide)

/-- An array of numbers. -/
def numbers : TypeRef :=
  arrayOf { qualifier := some "System", name := "Int32" }

/-- The array of numbers with an empty qualifier. -/
def qualifiedNumbers : TypeRef :=
  { numbers with qualifier := some "" }

/-- An empty qualifier on an array does not show, so that different well-formed types have one
text. -/
theorem textOf_emptyQualifier :
    numbers.WellFormed ∧ qualifiedNumbers.WellFormed ∧ numbers ≠ qualifiedNumbers ∧
      textOf (some numbers) = textOf (some qualifiedNumbers) := by
  have hint : Plain { qualifier := some "System", name := "Int32" } :=
    .named (by decide +kernel) (by simp)
  refine ⟨.array (by decide) hint, .array (by decide) hint, ?_, rfl⟩
  intro heq
  exact absurd (congrArg TypeRef.qualifier heq) (by decide)

end Recast.TypeRef
