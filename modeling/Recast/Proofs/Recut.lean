import Recast.Build.Member
import Recast.Listing
import Recast.Proofs.Scanning

/-!
# Cutting what was printed

A declarator is cut into a name and a value, and printed with an equals sign between blanks. What is
printed is cut into the same parts again (`cuts_joined`), although the blanks around the sign are
other ones than in the text that was cut first. That rests on two facts about scans. Blanks at the
ends of a text change none of its signs (`assignments_append_blanks`,
`assignments_blanks_append`). And a scan that is in code behind some blanks was in code in front of
them (`Mode.isCode_afterAll_blanks`), so that what is trimmed off a name opens or closes nothing.

The second fact needs that there is no line feed among the blanks, since a line feed ends a comment.
-/

set_option autoImplicit false

namespace Recast.Code

open Text (isBlank trim)

/-! ## Scanning blanks -/

theorem ne_of_isBlank {c mark : Char} (h : isBlank c = true) (hmark : isBlank mark = false) :
    c ≠ mark := by
  rintro rfl
  rw [h] at hmark
  cases hmark

/-- A blank is no part of an operator. -/
theorem any_contains_of_isBlank {found : Option Char} {marks : List Char}
    (h : ∀ c ∈ found, isBlank c = true) (hmarks : marks.any isBlank = false) :
    found.any marks.contains = false := by
  cases found with
  | none => rfl
  | some c =>
    have hc : c ∉ marks := fun hmem => List.any_eq_false.1 hmarks c hmem (h c rfl)
    simpa using hc

theorem Mode.behindCode_blank {c : Char} (h : isBlank c = true) : behindCode c = .plain := by
  rw [behindCode.eq_def]
  split
  · exact absurd rfl (ne_of_isBlank h (by decide))
  · exact absurd rfl (ne_of_isBlank h (by decide))
  · exact absurd rfl (ne_of_isBlank h (by decide))
  · exact absurd rfl (ne_of_isBlank h (by decide))
  · rfl

/-- A blank in code leaves nothing pending. -/
theorem Mode.after_blank {mode : Mode} {c : Char} (hmode : mode.isCode = true)
    (h : isBlank c = true) : mode.after c = .plain := by
  have hplain := behindCode_blank h
  cases mode with
  | plain => exact hplain
  | slash =>
    rw [after, if_neg (ne_of_isBlank h (by decide)), if_neg (ne_of_isBlank h (by decide)), hplain]
  | atSign => rw [after, if_neg (ne_of_isBlank h (by decide)), hplain]
  | verbatimQuote => rw [after, if_neg (ne_of_isBlank h (by decide)), hplain]
  | lineComment | blockComment | asterisk | verbatim | quoted | escape => cases hmode

/-- A blank other than a line feed opens and closes nothing. -/
theorem Mode.isCode_after_blank (mode : Mode) {c : Char} (h : isBlank c = true)
    (hline : c ≠ '\n') : (mode.after c).isCode = mode.isCode := by
  cases hmode : mode.isCode with
  | true => rw [after_blank hmode h, isCode]
  | false =>
    cases mode with
    | plain | slash | atSign | verbatimQuote => cases hmode
    | lineComment =>
      rw [after, if_neg hline]
      rfl
    | blockComment =>
      rw [after, if_neg (ne_of_isBlank h (by decide))]
      rfl
    | asterisk =>
      rw [after, if_neg (ne_of_isBlank h (by decide)), if_neg (ne_of_isBlank h (by decide))]
      rfl
    | verbatim =>
      rw [after, if_neg (ne_of_isBlank h (by decide))]
      rfl
    | quoted quote =>
      have hmark : isBlank quote.mark = false := by cases quote <;> decide
      rw [after, if_neg (ne_of_isBlank h (by decide)), if_neg (ne_of_isBlank h hmark)]
      rfl
    | escape quote => rfl

section Blanks

variable {blanks : List Char}

theorem Mode.afterAll_plain_blanks (h : ∀ c ∈ blanks, isBlank c = true) :
    Mode.plain.afterAll blanks = .plain := by
  induction blanks with
  | nil => rfl
  | cons c blanks ih =>
    obtain ⟨hc, hblanks⟩ := List.forall_mem_cons.1 h
    rw [afterAll_cons, after_blank rfl hc, ih hblanks]

/-- Blanks on one line open and close nothing. -/
theorem Mode.isCode_afterAll_blanks (mode : Mode) (h : ∀ c ∈ blanks, isBlank c = true)
    (hline : '\n' ∉ blanks) : (mode.afterAll blanks).isCode = mode.isCode := by
  induction blanks generalizing mode with
  | nil => rfl
  | cons c blanks ih =>
    obtain ⟨hc, hblanks⟩ := List.forall_mem_cons.1 h
    rw [List.mem_cons, not_or] at hline
    rw [afterAll_cons, ih _ hblanks hline.2, isCode_after_blank mode hc (Ne.symm hline.1)]

theorem signsFrom_blanks (h : ∀ c ∈ blanks, isBlank c = true) (mode : Mode)
    (before : Option Char) (at_ : Nat) : signsFrom mode before at_ blanks = [] := by
  rw [List.eq_nil_iff_forall_not_mem]
  intro i hi
  obtain ⟨p, q, rfl, -⟩ := mem_signsFrom_iff.1 hi
  exact ne_of_isBlank (h '=' (by simp)) (by decide) rfl

/-- Blanks behind a text change none of its signs. -/
theorem assignments_append_blanks (h : ∀ c ∈ blanks, isBlank c = true) (s : List Char) :
    assignments (s ++ blanks) = assignments s := by
  have hhead : blanks.head?.any operatorEnds.contains = false :=
    any_contains_of_isBlank (fun c hc => h c (List.mem_of_mem_head? hc)) (by decide)
  rw [assignments_eq_signsFrom, assignments_eq_signsFrom, signsFrom_append fun _ => hhead,
    signsFrom_blanks h, List.append_nil]

/-- Blanks in front of a text move all its signs back. -/
theorem assignments_blanks_append (h : ∀ c ∈ blanks, isBlank c = true) (s : List Char) :
    assignments (blanks ++ s) = (assignments s).map (· + blanks.length) := by
  have hlast : blanks.getLast? ≠ some '=' := by
    intro hlast
    exact ne_of_isBlank (h '=' (List.mem_of_getLast? hlast)) (by decide) rfl
  have hbefore : blanks.getLast?.any operatorStarts.contains = false :=
    any_contains_of_isBlank (fun c hc => h c (List.mem_of_getLast? hc)) (by decide)
  rw [assignments_eq_signsFrom, assignments_eq_signsFrom,
    signsFrom_append fun hequals => absurd hequals hlast, signsFrom_blanks h, List.nil_append,
    Mode.afterAll_plain_blanks h, Option.or_none, signsFrom_none_before (.inl hbefore),
    signsFrom_add]

end Blanks

/-- A text and its trimmed form both have signs, or neither has. -/
theorem assignments_trim_eq_nil_iff (s : List Char) :
    assignments (trim s) = [] ↔ assignments s = [] := by
  obtain ⟨front, back, hfront, hback, hs⟩ := Text.exists_eq_append_trim s
  have hmap : assignments s = (assignments (trim s)).map (· + front.length) := by
    conv_lhs => rw [hs, assignments_append_blanks hback, assignments_blanks_append hfront]
  rw [hmap, List.map_eq_nil_iff]

/-- On one line, a scan is in code behind a text if it is in code behind its trimmed form. -/
theorem isCode_afterAll_trim {s : List Char} (hline : '\n' ∉ s) :
    (Mode.plain.afterAll (trim s)).isCode = (Mode.plain.afterAll s).isCode := by
  obtain ⟨front, back, hfront, hback, hs⟩ := Text.exists_eq_append_trim s
  have hlineBack : '\n' ∉ back := fun hmem => hline (by rw [hs]; simp [hmem])
  conv_rhs => rw [hs, Mode.afterAll_append, Mode.afterAll_append,
    Mode.isCode_afterAll_blanks _ hback hlineBack, Mode.afterAll_plain_blanks hfront]

/-! ## The parts of a cut -/

theorem lt_length_of_mem_assignments {s : List Char} {i : Nat} (h : i ∈ assignments s) :
    i < s.length := by
  obtain ⟨p, q, rfl, rfl, -⟩ := mem_assignments_iff.1 h
  simp

/-- A way to pick one of the signs of a text, with what it asks of the parts on the two sides of the
sign. -/
structure Picks (pick : List Nat → Option Nat) (agrees : List Char → List Char → Prop) : Prop where
  mem {l : List Nat} {i : Nat} : pick l = some i → i ∈ l
  eq_none_iff {l : List Nat} : pick l = none ↔ l = []
  picks_iff {p q : List Char} : IsSignBetween p q →
    (pick (assignments (p ++ '=' :: q)) = some p.length ↔ agrees p q)
  respace {p q : List Char} : agrees p q → agrees (trim p ++ [' ']) (' ' :: trim q)

theorem isBlank_of_mem_space : ∀ c ∈ [' '], isBlank c = true :=
  List.forall_mem_singleton.2 (by decide)

/-- The first sign is the one without a sign in front. -/
theorem picks_head? : Picks List.head? fun p _ => assignments p = [] where
  mem := List.mem_of_mem_head?
  eq_none_iff := List.head?_eq_none_iff
  picks_iff {p q} h := by
    rw [assignments_append_cons h]
    cases hp : assignments p with
    | nil => simp
    | cons i signs =>
      have hlt : i < p.length := lt_length_of_mem_assignments (by rw [hp]; exact List.mem_cons_self)
      simp only [List.cons_append, List.head?_cons, Option.some.injEq, reduceCtorEq, iff_false]
      omega
  respace {p q} h := by
    rw [assignments_append_blanks isBlank_of_mem_space]
    exact (assignments_trim_eq_nil_iff p).2 h

/-- The last sign is the one without a sign behind. -/
theorem picks_getLast? : Picks List.getLast? fun _ q => assignments q = [] where
  mem := List.mem_of_getLast?
  eq_none_iff := List.getLast?_eq_none_iff
  picks_iff {p q} h := by
    rw [assignments_append_cons h, List.getLast?_append, List.getLast?_cons, List.getLast?_map]
    cases hq : (assignments q).getLast? with
    | none => simp [List.getLast?_eq_none_iff.1 hq]
    | some i =>
      have hne : assignments q ≠ [] := List.ne_nil_of_mem (List.mem_of_getLast? hq)
      simp only [Option.map_some, Option.getD_some, Option.some_or, Option.some.injEq, hne,
        iff_false]
      omega
  respace {p q} h := by
    rw [← List.singleton_append, assignments_blanks_append isBlank_of_mem_space,
      List.map_eq_nil_iff]
    exact (assignments_trim_eq_nil_iff q).2 h

section Picks

variable {pick : List Nat → Option Nat} {agrees : List Char → List Char → Prop}
variable {s name value : List Char}

/-- Where a text is cut in two. -/
theorem cutAt_eq_some_iff (h : Picks pick agrees) :
    cutAt s (pick (assignments s)) = (name, some value) ↔
      ∃ p q, s = p ++ '=' :: q ∧ IsSignBetween p q ∧ agrees p q ∧ name = trim p ∧
        value = trim q := by
  have hcut : ∀ p q : List Char,
      cutAt (p ++ '=' :: q) (some p.length) = (trim p, some (trim q)) := by
    intro p q
    simp [cutAt]
  constructor
  · intro hs
    cases hpick : pick (assignments s) with
    | none => simp [hpick, cutAt] at hs
    | some i =>
      obtain ⟨p, q, rfl, rfl, hsign⟩ := mem_assignments_iff.1 (h.mem hpick)
      rw [hpick, hcut, Prod.mk.injEq, Option.some.injEq] at hs
      exact ⟨p, q, rfl, hsign, (h.picks_iff hsign).1 hpick, hs.1.symm, hs.2.symm⟩
  · rintro ⟨p, q, rfl, hsign, hagrees, rfl, rfl⟩
    rw [(h.picks_iff hsign).2 hagrees, hcut]

theorem cutAt_eq_none_iff (h : Picks pick agrees) :
    cutAt s (pick (assignments s)) = (name, none) ↔ assignments s = [] ∧ name = trim s := by
  cases hpick : pick (assignments s) with
  | none => simp [cutAt, h.eq_none_iff.1 hpick, eq_comm]
  | some i =>
    have hne : assignments s ≠ [] := List.ne_nil_of_mem (h.mem hpick)
    simp [cutAt, hne]

/-- The two parts of a text on one line are found again when they are joined by a sign. -/
theorem cutAt_join (h : Picks pick agrees) (hline : '\n' ∉ s)
    (hs : cutAt s (pick (assignments s)) = (name, some value)) :
    let joined := name ++ ' ' :: '=' :: ' ' :: value
    cutAt joined (pick (assignments joined)) = (name, some value) := by
  obtain ⟨p, q, rfl, hsign, hagrees, rfl, rfl⟩ := (cutAt_eq_some_iff h).1 hs
  have hcode : (Mode.plain.afterAll (trim p)).isCode = true := by
    rw [isCode_afterAll_trim fun hmem => hline (by simp [hmem])]
    exact hsign.isCode
  have hspaced : IsSignBetween (trim p ++ [' ']) (' ' :: trim q) := by
    refine ⟨?_, ?_⟩
    · rw [Mode.afterAll_append, Mode.isCode_afterAll_blanks _ isBlank_of_mem_space (by decide)]
      exact hcode
    · rw [List.getLast?_append]
      rfl
  refine (cutAt_eq_some_iff h).2
    ⟨trim p ++ [' '], ' ' :: trim q, ?_, hspaced, h.respace hagrees, ?_, ?_⟩
  · simp
  · rw [Text.trim_append_blanks isBlank_of_mem_space, Text.trim_trim]
  · rw [← List.singleton_append, Text.trim_blanks_append isBlank_of_mem_space, Text.trim_trim]

/-- A text that is not cut stays whole when it is trimmed. -/
theorem cutAt_trim (h : Picks pick agrees) (hs : cutAt s (pick (assignments s)) = (name, none)) :
    cutAt name (pick (assignments name)) = (name, none) := by
  obtain ⟨hnone, rfl⟩ := (cutAt_eq_none_iff h).1 hs
  exact (cutAt_eq_none_iff h).2 ⟨(assignments_trim_eq_nil_iff s).2 hnone, (Text.trim_trim s).symm⟩

/-- Blanks behind a text do not show in its parts. -/
theorem cutAt_append_blanks (h : Picks pick agrees) {blanks : List Char}
    (hblanks : ∀ c ∈ blanks, isBlank c = true) (s : List Char) :
    cutAt (s ++ blanks) (pick (assignments (s ++ blanks))) = cutAt s (pick (assignments s)) := by
  rw [assignments_append_blanks hblanks]
  cases hpick : pick (assignments s) with
  | none => rw [cutAt, cutAt, Text.trim_append_blanks hblanks]
  | some i =>
    have hlt := lt_length_of_mem_assignments (h.mem hpick)
    rw [cutAt, cutAt, List.take_append_of_le_length (Nat.le_of_lt hlt),
      List.drop_append_of_le_length hlt, Text.trim_append_blanks hblanks]

end Picks

/-! ## Printing and cutting -/

theorem map_ofList_eq_iff {parts : List Char × Option (List Char)} {name : String}
    {init : Option String} :
    parts.map String.ofList (Option.map String.ofList) = (name, init) ↔
      parts = (name.toList, init.map String.toList) := by
  have hchars : ∀ (s : List Char) (text : String), String.ofList s = text ↔ s = text.toList :=
    fun s text => ⟨fun h => by rw [← h, String.toList_ofList],
      fun h => by rw [h, String.ofList_toList]⟩
  obtain ⟨front, back⟩ := parts
  simp only [Prod.map_apply, Prod.mk.injEq]
  refine and_congr (hchars front name) ?_
  cases back with
  | none => cases init <;> simp
  | some back =>
    cases init with
    | none => simp
    | some init => simpa using hchars back init

theorem cutFirst_eq_iff {text name : String} {init : Option String} :
    cutFirst text = (name, init) ↔
      cutAt text.toList (assignments text.toList).head?
        = (name.toList, init.map String.toList) :=
  map_ofList_eq_iff

theorem cutLast_eq_iff {text name : String} {init : Option String} :
    cutLast text = (name, init) ↔
      cutAt text.toList (assignments text.toList).getLast?
        = (name.toList, init.map String.toList) :=
  map_ofList_eq_iff

theorem toList_joined (name value : String) :
    (name ++ " = " ++ value).toList = name.toList ++ ' ' :: '=' :: ' ' :: value.toList := by
  simp

/-- A name and a value that were cut apart are printed so that they are cut apart again, and a name
without a value stays whole. So a member of an enumeration can be read off the line that is printed
for it. -/
theorem cuts_joined (text : String) (hline : '\n' ∉ text.toList) :
    (∀ name value, cutFirst text = (name, some value) →
        cutFirst (name ++ " = " ++ value) = (name, some value)) ∧
      (∀ head value, cutLast text = (head, some value) →
        cutLast (head ++ " = " ++ value) = (head, some value)) ∧
      (∀ name, cutFirst text = (name, none) → cutFirst name = (name, none)) ∧
      (∀ head, cutLast text = (head, none) → cutLast head = (head, none)) ∧
      ∀ node : Node, node.source = text →
        let member := Build.enumMember node
        ∃ line, Listing.enumMember member = "    " ++ line ++ "\n" ∧
          cutFirst line = (member.name, member.init) ∧
          cutFirst (line ++ "\n") = (member.name, member.init) := by
  have hfirst : ∀ name value, cutFirst text = (name, some value) →
      cutFirst (name ++ " = " ++ value) = (name, some value) := by
    intro name value h
    rw [cutFirst_eq_iff, toList_joined]
    exact cutAt_join picks_head? hline (cutFirst_eq_iff.1 h)
  have hwhole : ∀ name, cutFirst text = (name, none) → cutFirst name = (name, none) := by
    intro name h
    exact cutFirst_eq_iff.2 (cutAt_trim picks_head? (cutFirst_eq_iff.1 h))
  refine ⟨hfirst, ?_, hwhole, ?_, ?_⟩
  · intro head value h
    rw [cutLast_eq_iff, toList_joined]
    exact cutAt_join picks_getLast? hline (cutLast_eq_iff.1 h)
  · intro head h
    exact cutLast_eq_iff.2 (cutAt_trim picks_getLast? (cutLast_eq_iff.1 h))
  · intro node hnode member
    have hmember : cutFirst text = (member.name, member.init) := by
      rw [← hnode]
      rfl
    have hcut : cutFirst (Listing.withValue member.name member.init)
        = (member.name, member.init) := by
      cases hinit : member.init with
      | none => exact hwhole member.name (by rw [hmember, hinit])
      | some value => exact hfirst member.name value (by rw [hmember, hinit])
    refine ⟨Listing.withValue member.name member.init, rfl, hcut, ?_⟩
    have hfeed : ∀ c ∈ "\n".toList, isBlank c = true := List.all_eq_true.1 (by decide)
    rw [cutFirst_eq_iff, String.toList_append, cutAt_append_blanks picks_head? hfeed]
    exact cutFirst_eq_iff.1 hcut

/-- A text with equals signs in a comment, in operators and in literals around two assignment
signs. -/
def mixedText : String :=
  " x[i = 0] /* = */ => '=' =@\"a=\"\"\" + b // c ="

theorem cuts_joined_mixedText :
    '\n' ∉ mixedText.toList ∧
      cutFirst ("x[i" ++ " = " ++ "0] /* = */ => '=' =@\"a=\"\"\" + b // c =")
        = ("x[i", some "0] /* = */ => '=' =@\"a=\"\"\" + b // c =") ∧
      cutLast ("x[i = 0] /* = */ => '='" ++ " = " ++ "@\"a=\"\"\" + b // c =")
        = ("x[i = 0] /* = */ => '='", some "@\"a=\"\"\" + b // c =") ∧
      (∃ line, Listing.enumMember (Build.enumMember { kind := .enumMember, text := mixedText })
          = "    " ++ line ++ "\n" ∧
        cutFirst line = ("x[i", some "0] /* = */ => '=' =@\"a=\"\"\" + b // c =")) ∧
      cutFirst "flag" = ("flag", none) ∧ cutLast "flag" = ("flag", none) := by
  have hline : '\n' ∉ mixedText.toList := by decide +kernel
  obtain ⟨hfirst, hlast, -, -, hmember⟩ := cuts_joined mixedText hline
  obtain ⟨line, hprinted, hcut, -⟩ :=
    hmember { kind := .enumMember, text := mixedText } (by decide +kernel)
  obtain ⟨-, -, hwhole, hwholeLast, -⟩ := cuts_joined " flag " (by decide +kernel)
  refine ⟨hline, hfirst _ _ (by decide +kernel), hlast _ _ (by decide +kernel),
    ⟨line, hprinted, hcut.trans (by decide +kernel)⟩, hwhole _ (by decide +kernel),
    hwholeLast _ (by decide +kernel)⟩

end Recast.Code
