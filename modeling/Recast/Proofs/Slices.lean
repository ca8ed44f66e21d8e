import Recast.Pass.Attribute
import Recast.Proofs.Indexed

/-!
# Slices of a text by bytes

A text is stored as bytes, and a part of it is taken by two byte offsets. That fails unless both are
boundaries of characters and the first is not behind the second (`slice?`). Where a text is cut at
the offset of an assignment sign, or divided into the pieces of its attributes, all offsets are such
boundaries, so every part can be taken and is the part that is meant (`cutAtOffset?_eq`,
`isSlice_spansFrom`). `texts_scanned` puts all of this together: no scan of any text asks for a
character or for a part that is not there, and none goes on forever.
-/

set_option autoImplicit false

namespace Recast

/-! ## Slices -/

namespace Code

open String.Pos.Raw (IsValid)

theorem width_append (s t : List Char) : width (s ++ t) = width s + width t := by
  induction s with
  | nil => rw [List.nil_append, width, Nat.zero_add]
  | cons c s ih => rw [List.cons_append, width, width, ih, Nat.add_assoc]

theorem utf8ByteSize_ofList (s : List Char) : (String.ofList s).utf8ByteSize = width s := by
  induction s with
  | nil => rfl
  | cons c s ih =>
    have hchar : (String.ofList [c]).utf8ByteSize = c.utf8Size := String.utf8ByteSize_singleton
    rw [← List.singleton_append, String.ofList_append, String.utf8ByteSize_append, hchar, ih]
    rfl

theorem utf8ByteSize_eq (text : String) : text.utf8ByteSize = width text.toList := by
  rw [← utf8ByteSize_ofList, String.ofList_toList]

/-- Two byte offsets. -/
structure Span where
  start : Nat
  stop : Nat
deriving DecidableEq, Repr

/-- The part of a text between two byte offsets. -/
def slice? (text : String) (span : Span) : Option String :=
  if h : span.start ≤ span.stop ∧ IsValid text ⟨span.start⟩ ∧ IsValid text ⟨span.stop⟩ then
    some (text.extract (text.pos ⟨span.start⟩ h.2.1) (text.pos ⟨span.stop⟩ h.2.2))
  else none

/-- A span of a text between boundaries, in order, and the part of the text there. -/
structure IsSlice (text : String) (span : Span) (part : String) : Prop where
  ordered : span.start ≤ span.stop
  start_isValid : IsValid text ⟨span.start⟩
  stop_isValid : IsValid text ⟨span.stop⟩
  slice?_eq : slice? text span = some part

/-- There is a boundary behind any part of a text from its beginning. -/
theorem isValid_width {text : String} {front back : List Char}
    (h : text.toList = front ++ back) : IsValid text ⟨width front⟩ := by
  rw [String.Pos.Raw.isValid_iff_exists_take_toList]
  refine ⟨front.length, ?_⟩
  rw [h, List.take_left, utf8ByteSize_ofList]

/-- A part of a text begins behind the bytes in front of it and takes as many as it has. -/
theorem isSlice_of_append {text : String} {front part back : List Char}
    (h : text.toList = front ++ part ++ back) :
    IsSlice text ⟨width front, width (front ++ part)⟩ (String.ofList part) := by
  have hstart : IsValid text ⟨width front⟩ := isValid_width (by rw [h, List.append_assoc])
  have hstop : IsValid text ⟨width (front ++ part)⟩ := isValid_width h
  have hle : width front ≤ width (front ++ part) := by
    rw [width_append]
    omega
  refine ⟨hle, hstart, hstop, ?_⟩
  have htext : text = String.ofList front ++ String.ofList part ++ String.ofList back := by
    rw [← String.ofList_append, ← String.ofList_append, ← h, String.ofList_toList]
  have hsize : ∀ s : List Char, (String.ofList s).toByteArray.size = width s := utf8ByteSize_ofList
  -- Taken apart as bytes, the text is three byte sequences, and the middle one is cut out.
  rw [slice?, dif_pos ⟨hle, hstart, hstop⟩]
  refine congrArg some (String.toByteArray_inj.1 ?_)
  rw [String.toByteArray_extract, String.offset_pos, String.offset_pos, htext,
    String.toByteArray_append]
  have hfront : (String.ofList front ++ String.ofList part).toByteArray.size
      = width (front ++ part) := by
    rw [← String.ofList_append, hsize]
  rw [← hfront, ByteArray.extract_append_size_left, String.toByteArray_append]
  refine ByteArray.extract_append_eq_right (hsize front).symm ?_
  rw [ByteArray.size_append]

/-! ## Cutting a text at an assignment sign -/

/-- The stripped parts of a text in front of a byte offset and behind the byte there. -/
def cutAtOffset? (text : String) : Option Nat → Option (String × Option String)
  | some offset => do
    let front ← slice? text ⟨0, offset⟩
    let back ← slice? text ⟨offset + 1, text.utf8ByteSize⟩
    return (Text.stripped front, some (Text.stripped back))
  | none => return (Text.stripped text, none)

/-- Cuts a text at the byte offset of its first assignment sign. -/
def cutFirst? (text : String) : Option (String × Option String) := do
  cutAtOffset? text (← offsets? text.toList).head?

/-- Cuts a text at the byte offset of its last assignment sign. -/
def cutLast? (text : String) : Option (String × Option String) := do
  cutAtOffset? text (← offsets? text.toList).getLast?

/-- At the offset of an assignment sign there is one byte for the sign, and the parts on both sides
of it can be taken. -/
theorem isSlice_around_sign {text : String} {i : Nat} (h : i ∈ assignments text.toList) :
    IsSlice text ⟨0, width (text.toList.take i)⟩ (String.ofList (text.toList.take i)) ∧
      IsSlice text ⟨width (text.toList.take i), width (text.toList.take i) + 1⟩ "=" ∧
      IsSlice text ⟨width (text.toList.take i) + 1, text.utf8ByteSize⟩
        (String.ofList (text.toList.drop (i + 1))) := by
  obtain ⟨p, q, htext, rfl, -⟩ := mem_assignments_iff.1 h
  have htake : text.toList.take p.length = p := by rw [htext, List.take_left]
  have hdrop : text.toList.drop (p.length + 1) = q := by
    rw [htext, List.drop_append, List.drop_of_length_le (Nat.le_succ _), Nat.add_sub_cancel_left]
    rfl
  have hmiddle : text.toList = p ++ ['='] ++ q := by
    rw [htext, List.append_assoc]
    rfl
  have hsign : width (p ++ ['=']) = width p + 1 := width_append p ['=']
  have hsize : text.utf8ByteSize = width (p ++ ['='] ++ q) := by
    rw [utf8ByteSize_eq, hmiddle]
  rw [htake, hdrop, ← hsign, hsize]
  have hfront : text.toList = [] ++ p ++ '=' :: q := htext
  have hback : text.toList = p ++ ['='] ++ q ++ [] := by rw [hmiddle, List.append_nil]
  exact ⟨isSlice_of_append hfront, isSlice_of_append hmiddle, isSlice_of_append hback⟩

/-- Cutting by the offsets of signs cuts a text at these signs. -/
theorem cutAtOffset?_eq {text : String} {i? : Option Nat}
    (h : ∀ i ∈ i?, i ∈ assignments text.toList) :
    cutAtOffset? text (i?.map fun i => width (text.toList.take i))
      = some ((cutAt text.toList i?).map String.ofList (Option.map String.ofList)) := by
  cases i? with
  | none => rfl
  | some i =>
    obtain ⟨hfront, -, hback⟩ := isSlice_around_sign (h i rfl)
    rw [Option.map_some, cutAtOffset?, hfront.slice?_eq, hback.slice?_eq]
    simp [Text.stripped, cutAt]

theorem cutFirst?_eq (text : String) : cutFirst? text = some (cutFirst text) := by
  rw [cutFirst?, offsets?_eq, Option.bind_eq_bind, Option.bind_some, List.head?_map]
  exact cutAtOffset?_eq fun i hi => List.mem_of_mem_head? hi

theorem cutLast?_eq (text : String) : cutLast? text = some (cutLast text) := by
  rw [cutLast?, offsets?_eq, Option.bind_eq_bind, Option.bind_some, List.getLast?_map]
  exact cutAtOffset?_eq fun i hi => List.mem_of_mem_getLast? hi

end Code

/-! ## The pieces of attributes -/

namespace Attribute

open Code (width Span IsSlice)

/-- The spans of the pieces of a text of `size` bytes. The rest of it, which begins at the offset
`at_` inside `depth` parentheses, is still to be read, and the piece there begins at `start`. -/
def spansFrom (size depth start at_ : Nat) : List Char → List Span
  | [] => [⟨start, size⟩]
  | c :: s =>
    let next := at_ + c.utf8Size
    if depth = 0 && isDivider c then ⟨start, at_⟩ :: spansFrom size 0 next next s
    else spansFrom size (depthAfter depth c) start next s

/-- The spans of the pieces of a text. -/
def spans (text : String) : List Span :=
  spansFrom text.utf8ByteSize 0 0 0 text.toList

/-- The spans are those of the pieces. Behind `front` the piece that is being read has begun with
`part`, and `s` is left. -/
theorem isSlice_spansFrom {text : String} {front part s : List Char}
    (h : text.toList = front ++ part ++ s) (depth : Nat) :
    List.Forall₂ (IsSlice text)
      (spansFrom text.utf8ByteSize depth (width front) (width (front ++ part)) s)
      (((part ++ (piecesFrom depth s).1) :: (piecesFrom depth s).2).map String.ofList) := by
  induction s generalizing front part depth with
  | nil =>
    have hsize : text.utf8ByteSize = width (front ++ part) := by
      rw [Code.utf8ByteSize_eq, h, List.append_nil]
    rw [spansFrom, piecesFrom, List.append_nil, hsize]
    exact .cons (Code.isSlice_of_append h) .nil
  | cons c s ih =>
    have hnext : width (front ++ part) + c.utf8Size = width (front ++ part ++ [c]) :=
      (Code.width_append (front ++ part) [c]).symm
    rw [spansFrom, piecesFrom, hnext]
    split
    case isTrue hdivide =>
      -- The piece ends here, and the next one begins behind the divider.
      have hlater : text.toList = (front ++ part ++ [c]) ++ [] ++ s := by simp [h]
      have hspans := ih hlater 0
      rw [List.append_nil, List.nil_append] at hspans
      rw [List.append_nil]
      exact .cons (Code.isSlice_of_append h) hspans
    case isFalse hdivide =>
      -- The character belongs to the piece that is being read.
      have hlater : text.toList = front ++ (part ++ [c]) ++ s := by simp [h]
      have hspans := ih hlater (depthAfter depth c)
      rw [← List.append_cons] at hspans
      rw [List.append_assoc front part [c]]
      exact hspans

/-- The pieces and the dividers between them are the text. -/
theorem exists_dividers (depth : Nat) (s : List Char) :
    ∃ dividers : List Char, dividers.length = (piecesFrom depth s).2.length ∧
      (∀ c ∈ dividers, isDivider c = true) ∧
      s = (piecesFrom depth s).1
        ++ (List.zipWith List.cons dividers (piecesFrom depth s).2).flatten := by
  induction s generalizing depth with
  | nil => exact ⟨[], rfl, by simp, rfl⟩
  | cons c s ih =>
    rw [piecesFrom]
    split
    case isTrue hdivide =>
      obtain ⟨dividers, hlength, hall, hs⟩ := ih 0
      have hc : isDivider c = true := (Bool.and_eq_true_iff.1 hdivide).2
      refine ⟨c :: dividers, by rw [List.length_cons, List.length_cons, hlength], ?_, ?_⟩
      · exact List.forall_mem_cons.2 ⟨hc, hall⟩
      · rw [List.zipWith_cons_cons, List.flatten_cons, List.nil_append, List.cons_append, ← hs]
    case isFalse hdivide =>
      obtain ⟨dividers, hlength, hall, hs⟩ := ih (depthAfter depth c)
      refine ⟨dividers, hlength, hall, ?_⟩
      rw [List.cons_append, ← hs]

end Attribute

/-! ## Every text -/

/-- How a text is scanned for assignment signs and cut at them, with nothing going wrong: at every
place what is skipped ends behind the place and inside of the text, and is the region that begins
there; the search for signs ends; at the offset of each sign there is the one byte of the sign; and
the two parts around the first sign and around the last one can be taken. -/
structure SafelyCut (text : String) : Prop where
  skips_forward : ∀ i < text.toList.length, ∃ found, Code.skip? text.toList i = some found ∧
    ∀ p ∈ found, i < p ∧ p ≤ text.toList.length
  skips_region : ∀ front c rest, text.toList = front ++ c :: rest →
    Code.skip? text.toList front.length
      = some ((Code.region c rest).1.skipped?.map (front.length + ·))
  offsets_found : Code.offsets? text.toList
    = some ((Code.assignments text.toList).map fun i => Code.width (text.toList.take i))
  sign_at_offset : ∀ offsets, Code.offsets? text.toList = some offsets → ∀ offset ∈ offsets,
    Code.IsSlice text ⟨offset, offset + 1⟩ "="
  first_cut : Code.cutFirst? text = some (Code.cutFirst text)
  last_cut : Code.cutLast? text = some (Code.cutLast text)

/-- How a text is divided into the pieces of its attributes, with nothing going wrong: each span is
in order and between boundaries and holds its piece, and the pieces with dividers between them are
the text. -/
structure SafelyDivided (text : String) : Prop where
  spans_hold : List.Forall₂ (Code.IsSlice text) (Attribute.spans text)
    ((Attribute.pieces text.toList).map String.ofList)
  reassembled : ∃ first rest dividers, Attribute.pieces text.toList = first :: rest ∧
    dividers.length = rest.length ∧ (∀ c ∈ dividers, Attribute.isDivider c = true) ∧
    text.toList = first ++ (List.zipWith List.cons dividers rest).flatten

/-- Every text, whatever stands in it, is scanned for assignment signs and attributes to its end:
every search ends, no character is asked for outside of the text, and every part that is taken lies
between boundaries of characters. -/
theorem texts_scanned (text : String) : SafelyCut text ∧ SafelyDivided text := by
  constructor
  · refine ⟨fun i hi => Code.skip?_bounds hi, ?_, Code.offsets?_eq text.toList, ?_,
      Code.cutFirst?_eq text, Code.cutLast?_eq text⟩
    · intro front c rest htext
      rw [htext]
      exact Code.skip?_eq front c rest
    · intro offsets hoffsets offset hoffset
      rw [Code.offsets?_eq] at hoffsets
      cases hoffsets
      obtain ⟨i, hi, rfl⟩ := List.mem_map.1 hoffset
      exact (Code.isSlice_around_sign hi).2.1
  · have hwhole : text.toList = [] ++ [] ++ text.toList := rfl
    refine ⟨Attribute.isSlice_spansFrom hwhole 0, ?_⟩
    obtain ⟨dividers, hlength, hall, htext⟩ := Attribute.exists_dividers 0 text.toList
    exact ⟨_, _, dividers, rfl, hlength, hall, htext⟩

end Recast
