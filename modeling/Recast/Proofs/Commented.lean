import Recast.Proofs.Lexing
import Recast.Proofs.Recut

/-!
# A comment in front of a sign

A scan passes over a comment, but what stands in front of an equals sign is read off the text, and
the last character of a block comment is a slash. So an equals sign right behind a block comment is
taken for the end of the operator `/=` and is never an assignment sign: the text is cut at the first
sign of the value instead, or not at all. One blank between the comment and the equals sign is
enough for the cut to be the one without the comment (`cutFirst_behind_comment`).

Both follow from where a scan stands behind the text in front (`assignments_of_skips`).
-/

set_option autoImplicit false

namespace Recast.Code

open Text (isBlank trim)

/-! ## Passing over the text in front -/

theorem Skips.append {mode : Mode} {p q rest : List Char} (hp : Skips mode p (q ++ rest))
    (hq : Skips .plain q rest) : Skips mode (p ++ q) rest := by
  intro before at_
  rw [List.append_assoc, hp, hq, List.getLast?_append, Option.or_assoc, List.length_append,
    Nat.add_assoc]

theorem Mode.behindCode_of_not_mem {c : Char} (h : c ∉ ['\'', '"', '/', '@', '=']) :
    behindCode c = .plain := by
  rw [behindCode.eq_def]
  split
  · exact absurd (by decide) h
  · exact absurd (by decide) h
  · exact absurd (by decide) h
  · exact absurd (by decide) h
  · rfl

/-- Code without an equals sign in which nothing is opened. -/
theorem skips_code {p : List Char} (h : ∀ c ∈ p, c ∉ ['\'', '"', '/', '@', '='])
    (rest : List Char) : Skips .plain p rest := by
  induction p with
  | nil => exact .nil fun c _ => ⟨.inl rfl, rfl⟩
  | cons c p ih =>
    obtain ⟨hc, hp⟩ := List.forall_mem_cons.1 h
    have hsign : c ≠ '=' := by
      rintro rfl
      exact hc (by decide)
    refine .cons (.inr hsign) ?_
    rw [Mode.after, Mode.behindCode_of_not_mem hc]
    exact ih hp

theorem skips_blockComment {content : List Char} (h : ¬ ['*', '/'] <:+: content)
    (rest : List Char) : Skips .plain ('/' :: '*' :: (content ++ ['*', '/'])) rest := by
  have hskips := skips_blockEnd (content ++ '*' :: '/' :: rest)
  rw [blockEnd_closed h] at hskips
  exact .cons (.inr (by decide)) (.cons (.inr (by decide)) hskips)

/-- The signs behind a text that a scan passes over. -/
theorem assignments_of_skips {p rest : List Char} (h : Skips .plain p rest) :
    assignments (p ++ rest) = signsFrom .plain p.getLast? p.length rest := by
  rw [assignments_eq_signsFrom, h none 0, Option.or_none, Nat.zero_add]

/-! ## The sign behind it -/

section Value

variable {p gap value : List Char}

/-- An equals sign behind a slash is no assignment sign, and the signs of the value are found. -/
theorem assignments_behind_slash (hp : Skips .plain p ('=' :: value))
    (hslash : p.getLast? = some '/')
    (hvalue : value.head?.any operatorEnds.contains = false) :
    assignments (p ++ '=' :: value) = (assignments value).map (· + (p.length + 1)) := by
  have hhead : value.head? ≠ some '=' := by
    intro hhead
    rw [hhead] at hvalue
    cases hvalue
  have hoperator : isAssignmentBetween (some '/') value.head? = false := rfl
  rw [assignments_of_skips hp, hslash, signsFrom, if_neg (by simp [hoperator]),
    signsFrom_none_before (.inr hhead), assignments_eq_signsFrom, ← signsFrom_add, Nat.zero_add]
  rfl

/-- The value that is cut off is then the one of the value itself. -/
theorem cutAt_behind_slash (hp : Skips .plain p ('=' :: value)) (hslash : p.getLast? = some '/')
    (hvalue : value.head?.any operatorEnds.contains = false) :
    let s := p ++ '=' :: value
    (cutAt s (assignments s).head?).2 = (cutAt value (assignments value).head?).2 := by
  intro s
  rw [assignments_behind_slash hp hslash hvalue, List.head?_map]
  cases (assignments value).head? with
  | none => rfl
  | some i =>
    have hplace : i + (p.length + 1) + 1 = p.length + (i + 1 + 1) := by omega
    rw [Option.map_some, cutAt, cutAt, hplace, List.drop_length_add_append, List.drop_succ_cons]

/-- An equals sign behind blanks is an assignment sign, unless it begins an operator. -/
theorem cutAt_behind_blanks (hp : Skips .plain p (gap ++ '=' :: value))
    (hgap : ∀ c ∈ gap, isBlank c = true) (hne : gap ≠ [])
    (hvalue : value.head?.any operatorEnds.contains = false) :
    let s := p ++ (gap ++ '=' :: value)
    cutAt s (assignments s).head? = (trim p, some (trim value)) := by
  intro s
  have hlast : gap.getLast? ≠ some '=' := by
    intro hlast
    exact ne_of_isBlank (hgap '=' (List.mem_of_getLast? hlast)) (by decide) rfl
  have hbefore : (gap.getLast?.or p.getLast?).any operatorStarts.contains = false := by
    apply any_contains_of_isBlank _ (by decide)
    intro c hc
    rw [List.getLast?_eq_some_getLast hne, Option.some_or] at hc
    exact hgap c (List.mem_of_getLast? ((List.getLast?_eq_some_getLast hne).trans hc))
  have hsign : isAssignmentBetween (gap.getLast?.or p.getLast?) value.head? = true := by
    rw [isAssignmentBetween, hbefore, hvalue]
    rfl
  have hsigns : (assignments s).head? = some (p ++ gap).length := by
    rw [assignments_of_skips hp, signsFrom_append fun h => absurd h hlast, signsFrom_blanks hgap,
      Mode.afterAll_plain_blanks hgap, List.nil_append, signsFrom,
      if_pos (by simp [hsign, Mode.isCode]), List.head?_cons, List.length_append]
  have hs : s = (p ++ gap) ++ '=' :: value := (List.append_assoc p gap _).symm
  rw [hsigns, hs, cutAt, List.take_left, List.drop_length_add_append, List.drop_one,
    List.tail_cons, Text.trim_append_blanks hgap]

end Value

/-! ## What is cut off is shorter -/

theorem count_trim {c : Char} (h : isBlank c = false) (s : List Char) :
    (trim s).count c = s.count c := by
  have hblanks : ∀ blanks : List Char, (∀ d ∈ blanks, isBlank d = true) → blanks.count c = 0 := by
    intro blanks hblanks
    apply List.count_eq_zero.2
    intro hc
    exact ne_of_isBlank (hblanks c hc) h rfl
  obtain ⟨front, back, hfront, hback, hs⟩ := Text.exists_eq_append_trim s
  conv_rhs => rw [hs, List.count_append, List.count_append, hblanks front hfront,
    hblanks back hback, Nat.zero_add, Nat.add_zero]

/-- The value that is cut off a text is never the whole text: the sign is missing. -/
theorem cutFirst_ne_stripped (text : String) :
    (cutFirst text).2 ≠ some (Text.stripped text) := by
  intro h
  have hcut : cutFirst text = ((cutFirst text).1, some (Text.stripped text)) := Prod.ext rfl h
  obtain ⟨p, q, hs, -, -, -, hq⟩ := (cutAt_eq_some_iff picks_head?).1 (cutFirst_eq_iff.1 hcut)
  -- The parts have one equals sign less than the text together, and trimming removes none.
  have hcount := congrArg (List.count '=') hq
  rw [Text.stripped, String.toList_ofList, count_trim (by decide), count_trim (by decide), hs,
    List.count_append, List.count_cons_self] at hcount
  omega

/-! ## With and without the comment -/

/-- How a comment in front of an equals sign changes the cut. Without a comment the text is cut at
the sign. With a comment right in front of the sign the value is the one of `value`, and so never
the whole of it. With at least one blank between the comment and the sign the text is cut at the
sign again. -/
theorem cutFirst_behind_comment (front comment value : String)
    (hfront : ∀ c ∈ front.toList, c ∉ ['\'', '"', '/', '@', '='])
    (hcomment : ¬ ['*', '/'] <:+: comment.toList)
    (hvalue : ∀ c ∈ value.toList.head?, c ≠ '=' ∧ c ≠ '>') :
    cutFirst (front ++ " " ++ "=" ++ value) = (Text.stripped front, some (Text.stripped value)) ∧
      (cutFirst (front ++ "/*" ++ comment ++ "*/" ++ "=" ++ value)).2 = (cutFirst value).2 ∧
      (cutFirst (front ++ "/*" ++ comment ++ "*/" ++ "=" ++ value)).2
        ≠ some (Text.stripped value) ∧
      ∀ gap : String, gap ≠ "" → Text.isAllBlank gap = true →
        cutFirst (front ++ "/*" ++ comment ++ "*/" ++ gap ++ "=" ++ value)
          = (Text.stripped (front ++ "/*" ++ comment ++ "*/"), some (Text.stripped value)) := by
  have hend : value.toList.head?.any operatorEnds.contains = false := by
    cases hhead : value.toList.head? with
    | none => rfl
    | some c =>
      have hc := hvalue c hhead
      simp [operatorEnds, hc]
  let p := front.toList ++ '/' :: '*' :: (comment.toList ++ ['*', '/'])
  have hp : ∀ rest, Skips .plain p rest := fun rest =>
    (skips_code hfront _).append (skips_blockComment hcomment rest)
  have hbehind : (cutFirst (front ++ "/*" ++ comment ++ "*/" ++ "=" ++ value)).2
      = (cutFirst value).2 := by
    have hs : (front ++ "/*" ++ comment ++ "*/" ++ "=" ++ value).toList
        = p ++ '=' :: value.toList := by
      simp [p]
    have hslash : p.getLast? = some '/' := by
      simp [p, List.getLast?_cons]
    have hcut := cutAt_behind_slash (hp _) hslash hend
    simp only [cutFirst, hs, Prod.map_snd, hcut]
  refine ⟨?_, hbehind, ?_, ?_⟩
  · have hs : (front ++ " " ++ "=" ++ value).toList
        = front.toList ++ ([' '] ++ '=' :: value.toList) := by
      simp
    have hcut := cutAt_behind_blanks (skips_code hfront _) isBlank_of_mem_space (by decide) hend
    simp only [cutFirst, hs, hcut]
    rfl
  · rw [hbehind]
    exact cutFirst_ne_stripped value
  · intro gap hne hgap
    have hs : (front ++ "/*" ++ comment ++ "*/" ++ gap ++ "=" ++ value).toList
        = p ++ (gap.toList ++ '=' :: value.toList) := by
      simp [p]
    have hgapList : gap.toList ≠ [] := by simpa using hne
    have hcut := cutAt_behind_blanks (hp _) (List.all_eq_true.1 hgap) hgapList hend
    have hstripped : Text.stripped (front ++ "/*" ++ comment ++ "*/") = String.ofList (trim p) := by
      simp [Text.stripped, p]
    rw [hstripped]
    simp only [cutFirst, hs, hcut]
    rfl

theorem cutFirst_behind_comment_starred :
    (∀ c ∈ "x[i] ".toList, c ∉ ['\'', '"', '/', '@', '=']) ∧
      ¬ ['*', '/'] <:+: "* = / *".toList ∧
      (∀ c ∈ "f(k = 1)".toList.head?, c ≠ '=' ∧ c ≠ '>') ∧
      cutFirst ("x[i] " ++ " " ++ "=" ++ "f(k = 1)") = ("x[i]", some "f(k = 1)") ∧
      (cutFirst ("x[i] " ++ "/*" ++ "* = / *" ++ "*/" ++ "=" ++ "f(k = 1)")).2 = some "1)" ∧
      cutFirst ("x[i] " ++ "/*" ++ "* = / *" ++ "*/" ++ " " ++ "=" ++ "f(k = 1)")
        = ("x[i] /** = / **/", some "f(k = 1)") := by
  have hfront : ∀ c ∈ "x[i] ".toList, c ∉ ['\'', '"', '/', '@', '='] := by
    have hall : ("x[i] ".toList.all fun c => c ∉ ['\'', '"', '/', '@', '=']) = true := by
      decide +kernel
    intro c hc
    simpa using List.all_eq_true.1 hall c hc
  have hcomment : ¬ ['*', '/'] <:+: "* = / *".toList := by decide +kernel
  have hvalue : ∀ c ∈ "f(k = 1)".toList.head?, c ≠ '=' ∧ c ≠ '>' := by
    have hhead : "f(k = 1)".toList.head? = some 'f' := by decide +kernel
    intro c hc
    obtain rfl := Option.some.inj (hhead.symm.trans hc)
    decide
  obtain ⟨hspaced, hbehind, -, hgap⟩ :=
    cutFirst_behind_comment "x[i] " "* = / *" "f(k = 1)" hfront hcomment hvalue
  refine ⟨hfront, hcomment, hvalue, hspaced.trans (by decide +kernel),
    hbehind.trans (by decide +kernel),
    (hgap " " (by decide) (by decide +kernel)).trans (by decide +kernel)⟩

/-- A comment right in front of the sign hides it. -/
theorem cutFirst_hidden_sign :
    cutFirst ("x" ++ " " ++ "=" ++ " 1") = ("x", some "1") ∧
      cutFirst ("x" ++ "/*" ++ "c" ++ "*/" ++ "=" ++ " 1") = ("x/*c*/= 1", none) := by
  decide +kernel

end Recast.Code
