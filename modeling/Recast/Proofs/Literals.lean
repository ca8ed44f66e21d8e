import Recast.Proofs.Sections

/-!
# Literals in the arguments of attributes

Names of attributes are looked for outside of parentheses, and a parenthesis inside a string literal
counts like any other one. A name stands at the beginning of a text or behind a divider outside of
parentheses (`mem_names_iff`), so what a literal does to the attributes around it depends on the
parentheses in it. It hides what follows if it leaves one open (`LeavesAtMost`), and it is taken for
an attribute itself if it closes the parenthesis around it and then holds a name between dividers
(`Imitates`). A literal with its parentheses in pairs does neither.
-/

set_option autoImplicit false

namespace Recast.Attribute

open Text (isBlank trim)

/-! ## Where names stand -/

/-- Whether a character can stand in a target, a qualifier or a name. -/
def isHead (c : Char) : Bool :=
  c ≠ '(' && !isDivider c

/-- The name at the beginning of a text. -/
def nameAt (s : List Char) : List Char :=
  bareName (afterColon (s.takeWhile isHead))

/-- A divider outside of parentheses has a name behind it. The divider stands in `s`, which begins
inside `depth` parentheses and is followed by `rest`. -/
def NamedIn (depth : Nat) (name s rest : List Char) : Prop :=
  ∃ front c back, s = front ++ c :: back ∧ front.foldl depthAfter depth = 0 ∧
    isDivider c = true ∧ nameAt (back ++ rest) = name

theorem not_namedIn_nil (depth : Nat) (name rest : List Char) : ¬ NamedIn depth name [] rest := by
  rintro ⟨front, c, back, hs, -⟩
  exact List.append_ne_nil_of_right_ne_nil front (List.cons_ne_nil c back) hs.symm

theorem namedIn_cons {depth : Nat} {name s rest : List Char} {c : Char} :
    NamedIn depth name (c :: s) rest ↔
      (depth = 0 ∧ isDivider c = true ∧ nameAt (s ++ rest) = name) ∨
        NamedIn (depthAfter depth c) name s rest := by
  constructor
  · rintro ⟨front, d, back, hs, hdepth, hd, hname⟩
    cases front with
    | nil =>
      obtain ⟨rfl, rfl⟩ := List.cons.inj hs
      exact .inl ⟨hdepth, hd, hname⟩
    | cons first front =>
      obtain ⟨rfl, rfl⟩ := List.cons.inj hs
      exact .inr ⟨front, d, back, rfl, hdepth, hd, hname⟩
  · rintro (⟨hdepth, hc, hname⟩ | ⟨front, d, back, rfl, hdepth, hd, hname⟩)
    · exact ⟨[], c, s, rfl, hdepth, hc, hname⟩
    · exact ⟨c :: front, d, back, rfl, hdepth, hd, hname⟩

theorem namedIn_cons_of_not {depth : Nat} {name s rest : List Char} {c : Char}
    (h : isDivider c = false) :
    NamedIn depth name (c :: s) rest ↔ NamedIn (depthAfter depth c) name s rest := by
  rw [namedIn_cons, h]
  exact or_iff_right fun hfound => Bool.false_ne_true hfound.2.1

theorem namedIn_append {depth : Nat} {name s t rest : List Char} :
    NamedIn depth name (s ++ t) rest ↔
      NamedIn depth name s (t ++ rest) ∨ NamedIn (s.foldl depthAfter depth) name t rest := by
  induction s generalizing depth with
  | nil => simp [not_namedIn_nil]
  | cons c s ih =>
    rw [List.cons_append, List.foldl_cons, namedIn_cons, namedIn_cons, ih, List.append_assoc,
      or_assoc]

theorem depthAfter_zero_of_ne {c : Char} (h : c ≠ '(') : depthAfter 0 c = 0 := by
  rw [depthAfter, if_neg h, Nat.zero_sub, ite_self]

theorem ne_open_of_isDivider {c : Char} (h : isDivider c = true) : c ≠ '(' := by
  rintro rfl
  exact absurd h (by decide)

theorem piecesFrom_cons_of_not {depth : Nat} {c : Char} (h : isDivider c = false) (s : List Char) :
    piecesFrom depth (c :: s) = (c :: (piecesFrom (depthAfter depth c) s).1,
      (piecesFrom (depthAfter depth c) s).2) := by
  rw [piecesFrom, h, Bool.and_false]
  rfl

/-- Up to the first parenthesis, a piece is what stands in front of the next divider. -/
theorem takeWhile_piecesFrom (s : List Char) :
    (piecesFrom 0 s).1.takeWhile (· ≠ '(') = s.takeWhile isHead := by
  induction s with
  | nil => rfl
  | cons c s ih =>
    cases hc : isDivider c with
    | true => simp [piecesFrom, isHead, hc]
    | false =>
      rw [piecesFrom_cons_of_not hc]
      by_cases hopen : c = '('
      · subst hopen
        rfl
      · -- Without a parenthesis the next character stands outside as well.
        have hhead : isHead c = true := by simp [isHead, hc, hopen]
        rw [depthAfter_zero_of_ne hopen, List.takeWhile_cons_of_pos (by simpa using hopen),
          List.takeWhile_cons_of_pos hhead, ih]

theorem pieceName_piecesFrom (s : List Char) : pieceName (piecesFrom 0 s).1 = nameAt s := by
  rw [pieceName, takeWhile_piecesFrom, nameAt]

/-- The pieces behind the first one are those behind dividers. -/
theorem exists_piece_iff {depth : Nat} {name s : List Char} :
    (∃ piece ∈ (piecesFrom depth s).2, pieceName piece = name) ↔ NamedIn depth name s [] := by
  induction s generalizing depth with
  | nil => simp [piecesFrom, not_namedIn_nil]
  | cons c s ih =>
    rw [namedIn_cons, piecesFrom, List.append_nil]
    split
    case isTrue hdivide =>
      obtain ⟨hdepth, hc⟩ : depth = 0 ∧ isDivider c = true := by simpa using hdivide
      rw [hdepth, depthAfter_zero_of_ne (ne_open_of_isDivider hc), ← ih]
      simp [hc, pieceName_piecesFrom]
    case isFalse hdivide =>
      -- A divider inside of parentheses divides nothing, and neither does any other character.
      have hnone : ¬ (depth = 0 ∧ isDivider c = true ∧ nameAt s = name) := by
        rintro ⟨hdepth, hc, -⟩
        simp [hdepth, hc] at hdivide
      rw [← ih, or_iff_right hnone]

/-- A name is found at the beginning of a text or behind a divider outside of parentheses. -/
theorem mem_names_iff {name s : List Char} :
    name ∈ names s ↔ name ≠ [] ∧ (nameAt s = name ∨ NamedIn 0 name s []) := by
  rw [names, List.mem_filter, List.mem_map, ← exists_piece_iff, ← pieceName_piecesFrom, pieces,
    and_comm]
  simp [or_and_right, exists_or]

/-! ## Open parentheses by counting -/

/-- A text that begins inside one parenthesis leaves at most some number of them open: it closes
enough of them as a whole, and so does each ending of it. -/
def LeavesAtMost (most : Nat) (s : List Char) : Prop :=
  1 + s.count '(' ≤ most + s.count ')' ∧
    ∀ back, back <:+ s → back.count '(' ≤ most + back.count ')'

/-- A closing parenthesis too many counts for nothing, which makes no difference if the rest alone
closes enough. -/
theorem depthAfter_add_count_le_iff {depth most : Nat} {c : Char} {s : List Char}
    (h : s.count '(' ≤ most + s.count ')') :
    depthAfter depth c + s.count '(' ≤ most + s.count ')' ↔
      depth + (c :: s).count '(' ≤ most + (c :: s).count ')' := by
  by_cases hopen : c = '('
  · subst hopen
    rw [depthAfter, if_pos rfl, List.count_cons_self, List.count_cons_of_ne (by decide)]
    omega
  by_cases hclose : c = ')'
  · subst hclose
    rw [depthAfter, if_neg hopen, if_pos rfl, List.count_cons_self, List.count_cons_of_ne hopen]
    omega
  · rw [depthAfter, if_neg hopen, if_neg hclose, List.count_cons_of_ne hopen,
      List.count_cons_of_ne hclose]

theorem foldl_depthAfter_le_iff {depth most : Nat} {s : List Char} :
    s.foldl depthAfter depth ≤ most ↔
      depth + s.count '(' ≤ most + s.count ')' ∧
        ∀ back, back <:+ s → back.count '(' ≤ most + back.count ')' := by
  induction s generalizing depth with
  | nil => simp
  | cons c s ih =>
    rw [List.foldl_cons, ih]
    constructor
    · rintro ⟨hwhole, hback⟩
      have hcons := (depthAfter_add_count_le_iff (hback s List.suffix_rfl)).1 hwhole
      refine ⟨hcons, ?_⟩
      intro back hsuffix
      rcases List.suffix_cons_iff.1 hsuffix with rfl | hsuffix
      · omega
      · exact hback back hsuffix
    · rintro ⟨hwhole, hcons⟩
      have hback : ∀ back, back <:+ s → back.count '(' ≤ most + back.count ')' :=
        fun back hsuffix => hcons back (hsuffix.trans (List.suffix_cons c s))
      exact ⟨(depthAfter_add_count_le_iff (hback s List.suffix_rfl)).2 hwhole, hback⟩

theorem foldl_depthAfter_one_le_iff {most : Nat} {s : List Char} :
    s.foldl depthAfter 1 ≤ most ↔ LeavesAtMost most s :=
  foldl_depthAfter_le_iff

/-! ## What a literal is taken for -/

/-- A literal that reads as an attribute of some name: it closes the parenthesis that it stands in,
and then the name follows a divider and is followed by a divider or a parenthesis. -/
def Imitates (name s : List Char) : Prop :=
  ∃ front c head stop back, s = front ++ c :: (head ++ stop :: back) ∧ LeavesAtMost 0 front ∧
    isDivider c = true ∧ head.all isHead = true ∧ isHead stop = false ∧
    bareName (afterColon head) = name

theorem nameAt_append_cons {head : List Char} (h : head.all isHead = true) {stop : Char}
    (hstop : isHead stop = false) (rest : List Char) :
    nameAt (head ++ stop :: rest) = bareName (afterColon head) := by
  rw [nameAt, List.takeWhile_append_of_pos (List.all_eq_true.1 h),
    List.takeWhile_cons_of_neg (by simp [hstop]), List.append_nil]

/-- Either all of a text can stand in a name, or some character of it is the first to end one. -/
theorem all_isHead_or (s : List Char) :
    s.all isHead = true ∨ ∃ head stop back, s = head ++ stop :: back ∧
      head.all isHead = true ∧ isHead stop = false := by
  induction s with
  | nil => exact .inl rfl
  | cons c s ih =>
    cases hc : isHead c with
    | false => exact .inr ⟨[], c, s, rfl, rfl, hc⟩
    | true =>
      rcases ih with hall | ⟨head, stop, back, rfl, hhead, hstop⟩
      · exact .inl (by simp [hc, hall])
      · exact .inr ⟨c :: head, stop, back, rfl, by simp [hc, hhead], hstop⟩

theorem exists_afterColon_append_close (s : List Char) :
    ∃ t, afterColon (s ++ [')']) = t ++ [')'] := by
  by_cases hcolon : ':' ∈ s
  · obtain ⟨target, back, rfl, htarget⟩ := List.eq_append_cons_of_mem hcolon
    rw [List.append_assoc, List.cons_append, afterColon_append htarget]
    exact ⟨back, rfl⟩
  · have hnone : ':' ∉ s ++ [')'] := by simp [hcolon]
    exact ⟨s, afterColon_of_not_mem hnone⟩

theorem exists_trim_append_close (s : List Char) : ∃ t, trim (s ++ [')']) = t ++ [')'] := by
  have hstart : ∃ t, Text.trimStart (s ++ [')']) = t ++ [')'] := by
    rw [Text.trimStart, List.dropWhile_append]
    split
    · exact ⟨[], rfl⟩
    · exact ⟨_, rfl⟩
  obtain ⟨t, ht⟩ := hstart
  have hlast : (t ++ [')']).getLast?.any isBlank = false := by
    rw [List.getLast?_concat]
    decide
  exact ⟨t, by rw [trim, ht, Text.trimEnd_of_getLast? hlast]⟩

theorem withoutEnding_append_close (s : List Char) : withoutEnding (s ++ [')']) = s ++ [')'] := by
  have hsuffix : ending.isSuffixOf (s ++ [')']) = false := by
    rw [Bool.eq_false_iff]
    intro h
    obtain ⟨front, hfront⟩ := List.isSuffixOf_iff_suffix.1 h
    have hlast := congrArg List.getLast? hfront
    have hending : ending.getLast? = some 'e' := rfl
    rw [List.getLast?_append, List.getLast?_concat, hending, Option.some_or] at hlast
    exact absurd hlast (by decide)
  rw [withoutEnding, hsuffix, Bool.false_and, if_neg Bool.false_ne_true]

/-- A closing parenthesis stays at the end of a name. -/
theorem exists_bareName_append_close (s : List Char) :
    ∃ t, bareName (s ++ [')']) = t ++ [')'] := by
  obtain ⟨trimmed, htrimmed⟩ := exists_trim_append_close s
  obtain ⟨t, ht⟩ := exists_trim_append_close (afterLastPoint trimmed)
  refine ⟨t, ?_⟩
  rw [bareName, htrimmed, afterLastPoint_append_of_not_mem _ (by decide), ht,
    withoutEnding_append_close]

/-- A name that goes on to the end of the literal ends with a closing parenthesis. -/
theorem nameAt_append_quote_ne {name s : List Char} (hs : s.all isHead = true)
    (hname : name.getLast? ≠ some ')') (rest : List Char) :
    nameAt (s ++ '"' :: ')' :: ']' :: rest) ≠ name := by
  have hquote : (s ++ ['"', ')']).all isHead = true := by
    rw [List.all_append, hs]
    decide
  have hclosed : nameAt (s ++ '"' :: ')' :: ']' :: rest)
      = bareName (afterColon ((s ++ ['"']) ++ [')'])) := by
    have hbracket : isHead ']' = false := rfl
    simpa using nameAt_append_cons hquote hbracket rest
  obtain ⟨t, ht⟩ := exists_afterColon_append_close (s ++ ['"'])
  obtain ⟨u, hu⟩ := exists_bareName_append_close t
  rw [hclosed, ht, hu]
  rintro rfl
  exact hname List.getLast?_concat

/-- The names that are found behind dividers in a literal, up to the end of its arguments. -/
theorem namedIn_literal_iff {name s : List Char} (hname : name.getLast? ≠ some ')')
    (rest : List Char) :
    NamedIn 1 name s ('"' :: ')' :: ']' :: rest) ↔ Imitates name s := by
  constructor
  · rintro ⟨front, c, back, rfl, hdepth, hc, hbehind⟩
    rcases all_isHead_or back with hall | ⟨head, stop, back, rfl, hhead, hstop⟩
    · -- Nothing ends the name inside the literal, so it runs into the closing quote.
      exact absurd hbehind (nameAt_append_quote_ne hall hname rest)
    · rw [List.append_assoc, List.cons_append, nameAt_append_cons hhead hstop] at hbehind
      have hfront := foldl_depthAfter_one_le_iff.1 (Nat.le_of_eq hdepth)
      exact ⟨front, c, head, stop, back, rfl, hfront, hc, hhead, hstop, hbehind⟩
  · rintro ⟨front, c, head, stop, back, rfl, hfront, hc, hhead, hstop, hbehind⟩
    have hdepth := Nat.le_zero.1 (foldl_depthAfter_one_le_iff.2 hfront)
    refine ⟨front, c, head ++ stop :: back, rfl, hdepth, hc, ?_⟩
    rw [List.append_assoc, List.cons_append, nameAt_append_cons hhead hstop, hbehind]

/-! ## A literal between attributes -/

theorem not_namedIn_of_any_eq_false {depth : Nat} {name s rest : List Char}
    (h : s.any isDivider = false) : ¬ NamedIn depth name s rest := by
  rintro ⟨front, c, back, rfl, -, hc, -⟩
  simp [hc] at h

/-- Inside of parentheses that are not closed no name is found. -/
theorem not_namedIn_of_not_mem {depth : Nat} {name s rest : List Char} (h : ')' ∉ s) :
    ¬ NamedIn (depth + 1) name s rest := by
  rintro ⟨front, c, back, rfl, hdepth, -, -⟩
  have hle := (foldl_depthAfter_le_iff.1 (Nat.le_of_eq hdepth)).1
  have hfront : front.count ')' = 0 :=
    List.count_eq_zero.2 fun hmem => h (List.mem_append_left _ hmem)
  omega

/-- Behind the opening quote one parenthesis is open, and the name in front of it is another one. -/
theorem namedIn_obsolete_iff {name rest : List Char} (hname : name ≠ "Obsolete".toList) :
    NamedIn 0 name ("[Obsolete(\"".toList ++ rest) [] ↔ NamedIn 1 name rest [] := by
  have hlead : "[Obsolete(\"".toList = '[' :: ("Obsolete".toList ++ ['(', '"']) := by decide +kernel
  have hdepth : "[Obsolete(\"".toList.foldl depthAfter 0 = 1 := by decide +kernel
  have hfirst : nameAt ("Obsolete".toList ++ ['(', '"'] ++ rest) = "Obsolete".toList := by
    rw [List.append_assoc, List.cons_append, nameAt_append_cons (by decide +kernel) rfl]
    decide +kernel
  rw [namedIn_append, hdepth]
  apply or_iff_right
  rw [hlead, namedIn_cons, List.append_nil, hfirst]
  rintro (⟨-, -, hfound⟩ | hfound)
  · exact hname hfound.symm
  · exact not_namedIn_of_any_eq_false (by decide +kernel) hfound

/-- The names in a text that begins with an attribute that has a literal as its argument. -/
theorem mem_names_literal_iff {name literal : List Char} (hne : name ≠ [])
    (hname : name ≠ "Obsolete".toList) (hlast : name.getLast? ≠ some ')') (rest : List Char) :
    name ∈ names ("[Obsolete(\"".toList ++ (literal ++ '"' :: ')' :: ']' :: rest)) ↔
      Imitates name literal ∨
        NamedIn (literal.foldl depthAfter 1 - 1) name (']' :: rest) [] := by
  -- The text begins with a divider, so that no name stands there.
  have hstart : ∀ t, nameAt ("[Obsolete(\"".toList ++ t) ≠ name := by
    have hlead : "[Obsolete(\"".toList = [] ++ '[' :: "Obsolete(\"".toList := by decide +kernel
    intro t
    rw [hlead, List.append_assoc, List.cons_append, nameAt_append_cons rfl rfl]
    exact hne.symm
  have hquote : ∀ depth, NamedIn depth name ('"' :: ')' :: ']' :: rest) [] ↔
      NamedIn (depth - 1) name (']' :: rest) [] := by
    intro depth
    rw [namedIn_cons_of_not rfl, namedIn_cons_of_not rfl]
    rfl
  rw [mem_names_iff, and_iff_right hne, or_iff_right (hstart _), namedIn_obsolete_iff hname,
    namedIn_append, List.append_nil, namedIn_literal_iff hlast, hquote]

theorem not_namedIn_bracket {name : List Char} (hne : name ≠ []) (depth : Nat) :
    ¬ NamedIn depth name [']'] [] := by
  rw [namedIn_cons]
  rintro (⟨-, -, hfound⟩ | hfound)
  · exact hne hfound.symm
  · exact not_namedIn_nil _ _ _ hfound

/-- A literal in which each closing parenthesis has an opening one in front of it, and the other way
round. -/
def IsPaired (s : List Char) : Prop :=
  (∀ front, front <+: s → front.count ')' ≤ front.count '(') ∧ s.count '(' = s.count ')'

theorem IsPaired.leavesAtMost {s : List Char} (h : IsPaired s) : LeavesAtMost 1 s := by
  obtain ⟨hfront, hwhole⟩ := h
  refine ⟨by omega, ?_⟩
  rintro back ⟨front, rfl⟩
  have hle := hfront front (List.prefix_append front back)
  rw [List.count_append, List.count_append] at hwhole
  omega

theorem IsPaired.not_imitates {s : List Char} (h : IsPaired s) (name : List Char) :
    ¬ Imitates name s := by
  rintro ⟨front, c, head, stop, back, rfl, ⟨hclosed, -⟩, -⟩
  have hle := h.1 front (List.prefix_append front _)
  omega

end Recast.Attribute

namespace Recast

open Attribute (LeavesAtMost Imitates IsPaired)

/-- The name of the attribute of generated fields. -/
def generatedName : List Char :=
  "CompilerGenerated".toList

theorem Pass.not_mem_removeGenerated_iff {field : FieldDecl} {decl : ClassDecl}
    (h : field ∈ decl.fields) :
    field ∉ ((removeGenerated "CompilerGenerated").onClass decl).fields ↔
      generatedName ∈ Attribute.names field.entity.attributes.toList := by
  have hbare : Attribute.bareName "CompilerGenerated".toList = generatedName := by decide +kernel
  have hne : generatedName.isEmpty = false := by decide +kernel
  rw [onClass, List.mem_filter, and_iff_right h, Bool.not_eq_true', Bool.not_eq_false, isGenerated,
    hbare, hne, Bool.not_false, Bool.true_and, List.contains_iff_mem]

theorem generatedName_ne : generatedName ≠ [] ∧ generatedName ≠ "Obsolete".toList ∧
    generatedName.getLast? ≠ some ')' := by
  decide +kernel

/-- The name behind the literal is found if no parenthesis is open there. -/
theorem namedIn_generated_iff {depth : Nat} :
    Attribute.NamedIn depth generatedName (']' :: "[CompilerGenerated]".toList) [] ↔ depth = 0 := by
  constructor
  · intro hfound
    cases depth with
    | zero => rfl
    | succ depth => exact absurd hfound (Attribute.not_namedIn_of_not_mem (by decide +kernel))
  · rintro rfl
    exact ⟨[']'], '[', "CompilerGenerated]".toList, by decide +kernel, rfl, rfl, by decide +kernel⟩

theorem generatedName_mem_names_iff (literal : String) :
    (generatedName ∈ Attribute.names
        ("[Obsolete(\"" ++ literal ++ "\")][CompilerGenerated]").toList ↔
      LeavesAtMost 1 literal.toList ∨ Imitates generatedName literal.toList) ∧
    (generatedName ∈ Attribute.names ("[Obsolete(\"" ++ literal ++ "\")]").toList ↔
      Imitates generatedName literal.toList) := by
  obtain ⟨hne, hname, hlast⟩ := generatedName_ne
  have hboth : "\")][CompilerGenerated]".toList
      = '"' :: ')' :: ']' :: "[CompilerGenerated]".toList := by decide +kernel
  have hone : "\")]".toList = ['"', ')', ']'] := by decide +kernel
  constructor
  · rw [String.toList_append, String.toList_append, List.append_assoc, hboth,
      Attribute.mem_names_literal_iff hne hname hlast, namedIn_generated_iff, or_comm,
      ← Attribute.foldl_depthAfter_one_le_iff, Nat.sub_eq_zero_iff_le]
  · rw [String.toList_append, String.toList_append, List.append_assoc, hone,
      Attribute.mem_names_literal_iff hne hname hlast]
    exact or_iff_left (Attribute.not_namedIn_bracket hne _)

/-- A literal as the argument of another attribute, in front of the attribute of generated fields or
without it. The field with the attribute is removed exactly if the literal leaves no parenthesis
open but the one around it, or imitates the attribute. The field without it is removed exactly if
the literal imitates it. If the parentheses in the literal are paired, the literal has no effect. -/
theorem removed_iff_of_literal (literal : String) (space : Namespace) :
    let pass := Pass.removeGenerated "CompilerGenerated"
    let s := literal.toList
    (pass.run space).result = .ok (space.mapClasses pass.onClass) ∧
    (∀ decl ∈ space.classes, ∀ field ∈ decl.fields,
      (field.entity.attributes = "[Obsolete(\"" ++ literal ++ "\")][CompilerGenerated]" →
        (field ∉ (pass.onClass decl).fields ↔
          LeavesAtMost 1 s ∨ Imitates generatedName s)) ∧
      (field.entity.attributes = "[Obsolete(\"" ++ literal ++ "\")]" →
        (field ∉ (pass.onClass decl).fields ↔ Imitates generatedName s))) ∧
    (IsPaired s → LeavesAtMost 1 s ∧ ¬ Imitates generatedName s) := by
  intro pass s
  refine ⟨Pass.result_run_of_fault? rfl, ?_, fun h => ⟨h.leavesAtMost, h.not_imitates _⟩⟩
  intro decl _ field hfield
  obtain ⟨hboth, hone⟩ := generatedName_mem_names_iff literal
  rw [Pass.not_mem_removeGenerated_iff hfield]
  constructor
  · intro htext
    rw [htext, hboth]
  · intro htext
    rw [htext, hone]

/-- A literal with dividers and paired parentheses. -/
theorem removed_iff_of_literal_paired :
    let literal := "see f(x), [y]"
    let marked : FieldDecl :=
      { entity := { attributes := "[Obsolete(\"" ++ literal ++ "\")][CompilerGenerated]" } }
    let plain : FieldDecl := { entity := { attributes := "[Obsolete(\"" ++ literal ++ "\")]" } }
    let decl : ClassDecl := { fields := [marked, plain] }
    IsPaired literal.toList ∧
      marked ∉ ((Pass.removeGenerated "CompilerGenerated").onClass decl).fields ∧
      plain ∈ ((Pass.removeGenerated "CompilerGenerated").onClass decl).fields := by
  intro literal marked plain decl
  have hpaired : IsPaired literal.toList := by
    have hinits : literal.toList.inits.all (fun front => front.count ')' ≤ front.count '(') := by
      decide +kernel
    refine ⟨fun front hfront => ?_, by decide +kernel⟩
    exact of_decide_eq_true (List.all_eq_true.1 hinits front ((List.mem_inits _ _).2 hfront))
  obtain ⟨-, hremoved, heffect⟩ := removed_iff_of_literal literal { types := [.ofClass decl] }
  obtain ⟨hleaves, himitates⟩ := heffect hpaired
  have hclass : decl ∈ Namespace.classes { types := [.ofClass decl] } := List.mem_singleton_self _
  refine ⟨hpaired, ?_, ?_⟩
  · exact ((hremoved decl hclass marked (by simp [decl])).1 rfl).2 (.inl hleaves)
  · apply Decidable.not_not.1
    intro hgone
    exact himitates (((hremoved decl hclass plain (by simp [decl])).2 rfl).1 hgone)

/-- A literal with an opening parenthesis hides the attribute behind it, and one that closes its
parenthesis is taken for the attribute. -/
theorem removeGenerated_misled :
    let hidden : FieldDecl :=
      { entity := { attributes := "[Obsolete(\"" ++ "(" ++ "\")][CompilerGenerated]" } }
    let imitated : FieldDecl :=
      { entity := { attributes := "[Obsolete(\"" ++ ")][CompilerGenerated][" ++ "\")]" } }
    ((Pass.removeGenerated "CompilerGenerated").onClass
      { fields := [hidden, imitated] }).fields = [hidden] := by
  decide +kernel

end Recast
