import BlockTemplate.Text.Basic

/-! Color translation, place by place: a place changes exactly when it holds an ampersand with a code
character right after it. That no such place is left, that a second translation changes nothing and
where a text may be cut all follow from this. -/
namespace BlockTemplate.Text

/-- The characters that stand for a color or a style. -/
def colorCodes : List Char := "0123456789abcdefklmnor".toList

/-- At this place stands an ampersand with a code character right after it. -/
def MarksColor (cs : List Char) (i : Nat) : Prop :=
  cs[i]? = some '&' ∧ ∃ code ∈ colorCodes, cs[i + 1]? = some code

instance (cs : List Char) (i : Nat) : Decidable (MarksColor cs i) :=
  inferInstanceAs (Decidable (_ ∧ _))

/-- An ampersand at the end of the first text meets a code character at the start of the second. -/
def MeetInColor (cs ds : List Char) : Prop :=
  cs.getLast? = some '&' ∧ ∃ code ∈ colorCodes, ds.head? = some code

theorem isColorCode_iff (c : Char) : isColorCode c = true ↔ c ∈ colorCodes := by
  have hcodes : colorCodes = ['0', '1', '2', '3', '4', '5', '6', '7', '8', '9', 'a', 'b', 'c', 'd',
    'e', 'f', 'k', 'l', 'm', 'n', 'o', 'r'] := rfl
  simp only [isColorCode, hcodes, Bool.or_eq_true, Bool.and_eq_true, decide_eq_true_eq,
    Char.le_def, UInt32.le_iff_toNat_le, List.mem_cons, List.not_mem_nil, or_false,
    ← Char.toNat_inj, Char.reduceVal, UInt32.reduceToNat, Char.toNat_val, Char.reduceToNat]
  omega

section Places
variable {cs ds : List Char} {i : Nat}

theorem marksColor_zero (c d : Char) (rest : List Char) :
    MarksColor (c :: d :: rest) 0 ↔ c = '&' ∧ isColorCode d = true := by
  simp [MarksColor, isColorCode_iff]

theorem marksColor_succ (c : Char) (cs : List Char) (i : Nat) :
    MarksColor (c :: cs) (i + 1) ↔ MarksColor cs i := by
  simp [MarksColor]

/-- The last place has nothing after it. -/
theorem not_marksColor_of_length_le (h : cs.length ≤ i + 1) : ¬ MarksColor cs i := by
  rintro ⟨_, code, _, hcode⟩
  rw [List.getElem?_eq_none h] at hcode
  cases hcode

theorem length_translateChars (cs : List Char) : (translateChars cs).length = cs.length := by
  fun_induction translateChars cs with
  | case1 => rfl
  | case2 => rfl
  | case3 c d rest ih => exact congrArg (· + 1) ih

theorem getElem?_translateChars (cs : List Char) (i : Nat) :
    (translateChars cs)[i]? = if MarksColor cs i then some '§' else cs[i]? := by
  fun_induction translateChars cs generalizing i with
  | case1 => rw [if_neg (not_marksColor_of_length_le (Nat.zero_le _))]
  | case2 c => rw [if_neg (not_marksColor_of_length_le (Nat.le_add_left 1 i))]
  | case3 c d rest ih =>
    cases i with
    | zero =>
      simp only [List.getElem?_cons_zero, marksColor_zero, Bool.and_eq_true, decide_eq_true_eq]
      split <;> rfl
    | succ i =>
      simp only [List.getElem?_cons_succ, marksColor_succ]
      exact ih i

/-- A section sign is no ampersand, so the marked places are those that change. -/
theorem getElem?_translateChars_ne_iff :
    (translateChars cs)[i]? ≠ cs[i]? ↔ MarksColor cs i := by
  rw [getElem?_translateChars]
  by_cases h : MarksColor cs i
  · simp [h, h.1]
  · simp [h]

/-- An ampersand that stays has the character after it that it had before, or a section sign. -/
theorem not_marksColor_translateChars (cs : List Char) (i : Nat) :
    ¬ MarksColor (translateChars cs) i := by
  rintro ⟨hmark, code, hcode, hnext⟩
  rw [getElem?_translateChars] at hmark hnext
  have hkept : ¬ MarksColor cs i := by
    intro h
    simp [h] at hmark
  have hplain : ¬ MarksColor cs (i + 1) := by
    intro h
    rw [if_pos h] at hnext
    cases hnext
    exact absurd hcode (by decide)
  rw [if_neg hkept] at hmark
  rw [if_neg hplain] at hnext
  exact hkept ⟨hmark, code, hcode, hnext⟩

theorem translateChars_eq_self (h : ∀ i, ¬ MarksColor cs i) : translateChars cs = cs := by
  apply List.ext_getElem?
  intro i
  rw [getElem?_translateChars, if_neg (h i)]

theorem marksColor_append_left (h : i + 1 < cs.length) :
    MarksColor (cs ++ ds) i ↔ MarksColor cs i := by
  rw [MarksColor, List.getElem?_append_left (by omega), List.getElem?_append_left h, MarksColor]

/-- Only at the seam does one text look into the other. -/
theorem marksColor_append_seam (h : i + 1 = cs.length) :
    MarksColor (cs ++ ds) i ↔ MeetInColor cs ds := by
  rw [MarksColor, List.getElem?_append_left (by omega), List.getElem?_append_right (by omega),
    MeetInColor, List.getLast?_eq_getElem?, List.head?_eq_getElem?, ← h, Nat.add_sub_cancel,
    Nat.sub_self]

theorem marksColor_append_right (h : cs.length ≤ i) :
    MarksColor (cs ++ ds) i ↔ MarksColor ds (i - cs.length) := by
  rw [MarksColor, List.getElem?_append_right h, List.getElem?_append_right (by omega), MarksColor,
    Nat.sub_add_comm h]

theorem translateChars_append (h : ¬ MeetInColor cs ds) :
    translateChars (cs ++ ds) = translateChars cs ++ translateChars ds := by
  apply List.ext_getElem?
  intro i
  rw [getElem?_translateChars, List.getElem?_append, List.getElem?_append, length_translateChars]
  -- A place looks one character ahead, so the last one of the first text is the only one that the
  -- second text can change.
  obtain hleft | hseam | hright : i + 1 < cs.length ∨ i + 1 = cs.length ∨ cs.length ≤ i := by omega
  · have hi : i < cs.length := by omega
    simp only [if_pos hi, marksColor_append_left hleft, getElem?_translateChars]
  · have hi : i < cs.length := by omega
    have hapart : ¬ MarksColor cs i := not_marksColor_of_length_le (by omega)
    have hjoined : ¬ MarksColor (cs ++ ds) i := mt (marksColor_append_seam hseam).1 h
    simp only [if_pos hi, if_neg hjoined, getElem?_translateChars, if_neg hapart]
  · have hi : ¬ i < cs.length := by omega
    simp only [if_neg hi, marksColor_append_right hright, getElem?_translateChars]

/-- Translated apart, the two texts keep the ampersand at the seam. -/
theorem translateChars_append_ne (h : MeetInColor cs ds) :
    translateChars (cs ++ ds) ≠ translateChars cs ++ translateChars ds := by
  have hlength : 0 < cs.length := by
    cases cs with
    | nil => cases h.1
    | cons c cs => exact Nat.succ_pos _
  obtain ⟨i, hi⟩ : ∃ i, i + 1 = cs.length := ⟨cs.length - 1, by omega⟩
  have hlast : cs[i]? = some '&' := by
    rw [← h.1, List.getLast?_eq_getElem?, ← hi, Nat.add_sub_cancel]
  intro heq
  have hplace : (translateChars (cs ++ ds))[i]? = (translateChars cs)[i]? := by
    rw [heq, List.getElem?_append_left (by rw [length_translateChars]; omega)]
  rw [getElem?_translateChars, getElem?_translateChars, if_pos ((marksColor_append_seam hi).2 h),
    if_neg (not_marksColor_of_length_le (by omega)), hlast] at hplace
  cases hplace

end Places

theorem toList_translateColors (s : String) :
    (translateColors s).toList = translateChars s.toList :=
  String.toList_ofList

/-- Translation keeps the number of characters and puts a section sign at the places that hold an
ampersand with a code character right after it, and there only. No such place is left, so a second
translation changes nothing. Texts may be translated apart exactly when no ampersand at the end of
the first meets a code character at the start of the second. -/
theorem translateColors_places (s : String) :
    (translateColors s).length = s.length ∧
    (∀ i, ((translateColors s).toList[i]? ≠ s.toList[i]? ↔ MarksColor s.toList i) ∧
      (translateColors s).toList[i]? =
        if MarksColor s.toList i then some '§' else s.toList[i]?) ∧
    (∀ i, ¬ MarksColor (translateColors s).toList i) ∧
    translateColors (translateColors s) = translateColors s ∧
    ∀ t, translateColors (s ++ t) = translateColors s ++ translateColors t ↔
      ¬ MeetInColor s.toList t.toList := by
  simp only [← String.length_toList, ← String.toList_inj, String.toList_append,
    toList_translateColors]
  refine ⟨length_translateChars _, fun i => ⟨getElem?_translateChars_ne_iff,
    getElem?_translateChars _ i⟩, not_marksColor_translateChars _,
    translateChars_eq_self (not_marksColor_translateChars _), fun t => ?_⟩
  exact ⟨fun heq h => translateChars_append_ne h heq, translateChars_append⟩

example : translateColors "&&c &z §c&" = "&§c &z §c&" := by decide +kernel

end BlockTemplate.Text
