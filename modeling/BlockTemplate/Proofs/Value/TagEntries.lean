import BlockTemplate.Proofs.Value.TextComponent

/-! Item text as a sequence of entries. What is written first can be told from what follows it, and
the end of the enchantments can be told from the end of the text. -/
namespace BlockTemplate.Item

section Cancelling
variable {r s : List Char}

theorem cancel_while {p : Char → Bool} {xs ys : List Char} (hxs : ∀ c ∈ xs, p c = true)
    (hys : ∀ c ∈ ys, p c = true) (hr : ∀ c ∈ r.head?, p c = false)
    (hs : ∀ c ∈ s.head?, p c = false) (h : xs ++ r = ys ++ s) : xs = ys ∧ r = s := by
  induction xs generalizing ys with
  | nil =>
    cases ys with
    | nil => exact ⟨rfl, h⟩
    | cons y ys =>
      have hy := hys y List.mem_cons_self
      rw [List.nil_append] at h
      rw [h, List.cons_append, List.head?_cons] at hr
      rw [hr y rfl] at hy
      cases hy
  | cons x xs ih =>
    obtain ⟨hx, hxs⟩ := List.forall_mem_cons.1 hxs
    cases ys with
    | nil =>
      rw [List.nil_append] at h
      rw [← h, List.cons_append, List.head?_cons] at hs
      rw [hs x rfl] at hx
      cases hx
    | cons y ys =>
      obtain ⟨rfl, htail⟩ := List.cons.inj h
      obtain ⟨rfl, hrest⟩ := ih hxs (List.forall_mem_cons.1 hys).2 htail
      exact ⟨rfl, hrest⟩

theorem digits_cancel {m n : Nat} (hr : ∀ c ∈ r.head?, Decimal.isDigit c = false)
    (hs : ∀ c ∈ s.head?, Decimal.isDigit c = false) (h : digits m ++ r = digits n ++ s) :
    m = n ∧ r = s := by
  obtain ⟨hdigits, hrest⟩ := cancel_while (fun _ => Decimal.isDigit_of_mem_toDigits)
    (fun _ => Decimal.isDigit_of_mem_toDigits) hr hs h
  have hnumber := congrArg Decimal.ofDigits hdigits
  rw [Decimal.ofDigits_toDigits, Decimal.ofDigits_toDigits] at hnumber
  exact ⟨hnumber, hrest⟩

theorem textComponent_cancel {limits : Limits} {line other : String}
    (h : textComponent limits line ++ r = textComponent limits other ++ s) :
    colored limits line = colored limits other ∧ r = s := by
  have hread (line : String) (r : List Char) := readQuoted?_of_unquote? _
    (unquote?_flatMap (Json.textChars (colored limits line))) r
  rw [textComponent_eq, textComponent_eq] at h
  simp only [List.cons_append, List.append_assoc, List.nil_append] at h
  have hboth := congrArg readQuoted? (List.cons.inj h).2
  rw [hread, hread] at hboth
  obtain ⟨hjson, rfl⟩ := Prod.mk.inj (Option.some.inj hboth)
  have hline := parse?_textChars (colored limits line) 0
  rw [hjson, parse?_textChars] at hline
  exact ⟨(Json.Data.text.inj (Option.some.inj hline)).symm, rfl⟩

end Cancelling

/-- What follows an entry: the next one after a comma, or the end of the compound or list. -/
def following (entries : List (List Char)) (closing : List Char) : List Char :=
  if entries.isEmpty then closing else ',' :: (commaSeparated entries ++ closing)

section Entries
variable {xs ys : List (List Char)} {c d : List Char}

theorem braced_append (cs rest : List Char) :
    braced cs ++ rest = '\x7b' :: (cs ++ '\x7d' :: rest) := by
  simp [braced]

theorem bracketed_append (cs rest : List Char) :
    bracketed cs ++ rest = '[' :: (cs ++ ']' :: rest) := by
  simp [bracketed]

theorem commaSeparated_cons (x : List Char) (xs : List (List Char)) (c : List Char) :
    commaSeparated (x :: xs) ++ c = x ++ following xs c := by
  cases xs with
  | nil => rfl
  | cons y ys => simp [commaSeparated, following]

theorem following_inj (hc : c.head? ≠ some ',') (hd : d.head? ≠ some ',')
    (h : following xs c = following ys d) :
    (xs = [] ↔ ys = []) ∧ commaSeparated xs ++ c = commaSeparated ys ++ d := by
  cases xs with
  | nil =>
    cases ys with
    | nil => exact ⟨Iff.rfl, h⟩
    | cons y ys => exact absurd (congrArg List.head? h) hc
  | cons x xs =>
    cases ys with
    | nil => exact absurd (congrArg List.head? h).symm hd
    | cons y ys => exact ⟨by simp, (List.cons.inj h).2⟩

/-- Lists of things of which each can be told from what follows. -/
theorem list_cancel {α β : Type} {f : α → List Char} {g : α → β} (good : α → Prop)
    (hitem : ∀ x y r s, good x → good y → f x ++ r = f y ++ s → g x = g y ∧ r = s)
    {items others : List α} (hitems : ∀ x ∈ items, good x) (hothers : ∀ x ∈ others, good x)
    (hsome : items ≠ []) (hsomeOthers : others ≠ []) (hc : c.head? ≠ some ',')
    (hd : d.head? ≠ some ',')
    (h : commaSeparated (items.map f) ++ c = commaSeparated (others.map f) ++ d) :
    items.map g = others.map g ∧ c = d := by
  induction items generalizing others with
  | nil => exact absurd rfl hsome
  | cons x items ih =>
    cases others with
    | nil => exact absurd rfl hsomeOthers
    | cons y others =>
      obtain ⟨hx, hitems⟩ := List.forall_mem_cons.1 hitems
      obtain ⟨hy, hothers⟩ := List.forall_mem_cons.1 hothers
      rw [List.map_cons, List.map_cons, commaSeparated_cons, commaSeparated_cons] at h
      obtain ⟨hg, hrest⟩ := hitem x y _ _ hx hy h
      obtain ⟨hempty, hrest⟩ := following_inj hc hd hrest
      rw [List.map_eq_nil_iff, List.map_eq_nil_iff] at hempty
      rw [List.map_cons, List.map_cons, hg]
      by_cases hnone : items = []
      · obtain rfl := hempty.1 hnone
        subst hnone
        exact ⟨rfl, hrest⟩
      · obtain ⟨hmap, hrest⟩ := ih hitems hothers hnone (fun hno => hnone (hempty.2 hno)) hrest
        exact ⟨by rw [hmap], hrest⟩

theorem head?_entries {k : Char} (hxs : ∀ t ∈ xs, ∃ first ∈ t.head?, first ≠ k)
    (hc : c.head? ≠ some k) : (commaSeparated xs ++ c).head? ≠ some k := by
  cases xs with
  | nil => exact hc
  | cons t ts =>
    obtain ⟨first, hfirst, hne⟩ := hxs t List.mem_cons_self
    rw [commaSeparated_cons]
    cases t with
    | nil => cases hfirst
    | cons x t =>
      cases hfirst
      simpa using hne

/-- An entry that may be missing is told from the later ones by its first character. -/
theorem optional_cancel (k : Char) {x y : Option (List Char)} {P : Prop}
    (hx : ∀ t ∈ x, t.head? = some k) (hy : ∀ t ∈ y, t.head? = some k)
    (hxs : ∀ t ∈ xs, ∃ first ∈ t.head?, first ≠ k)
    (hys : ∀ t ∈ ys, ∃ first ∈ t.head?, first ≠ k) (hc : c.head? = some '\x7d')
    (hk : k ≠ '\x7d') (hnone : x = none → y = none → P)
    (hsome : ∀ s t, x = some s → y = some t → s ++ following xs c = t ++ following ys c →
      P ∧ following xs c = following ys c)
    (h : commaSeparated (x.toList ++ xs) ++ c = commaSeparated (y.toList ++ ys) ++ c) :
    P ∧ commaSeparated xs ++ c = commaSeparated ys ++ c := by
  have hck : c.head? ≠ some k := by
    rw [hc]
    simpa using hk.symm
  have hcomma : c.head? ≠ some ',' := by
    rw [hc]
    decide
  have hhead {t : List Char} {ts : List (List Char)} (ht : t.head? = some k) :
      (commaSeparated (t :: ts) ++ c).head? = some k := by
    rw [commaSeparated_cons]
    cases t with
    | nil => cases ht
    | cons => exact ht
  cases x with
  | none =>
    cases y with
    | none => exact ⟨hnone rfl rfl, h⟩
    | some t =>
      refine absurd ?_ (head?_entries hxs hck)
      rw [← hhead (hy t rfl)]
      exact congrArg List.head? h
  | some s =>
    cases y with
    | none =>
      refine absurd ?_ (head?_entries hys hck)
      rw [← hhead (hx s rfl)]
      exact congrArg List.head? h.symm
    | some t =>
      rw [Option.toList_some, Option.toList_some, List.singleton_append, List.singleton_append,
        commaSeparated_cons, commaSeparated_cons] at h
      obtain ⟨hP, hrest⟩ := hsome s t rfl rfl h
      exact ⟨hP, (following_inj hcomma hcomma hrest).2⟩

end Entries

/-! ### The entries of an item without raw tags, each present or not -/

section Tags
variable (limits : Limits) (i : Item)

def damageTag : Option (List Char) :=
  if i.damage = 0 then none else some ("Damage:".toList ++ digits i.damage)

def unbreakableTag : Option (List Char) :=
  if i.unbreakable then some "Unbreakable:1b".toList else none

/-- The enchantments as they stand between the brackets. -/
def enchantmentsText : List Char := commaSeparated (i.enchantments.map enchantmentTag)

def enchantmentsTag : Option (List Char) :=
  if i.enchantments = [] then none
  else some ("Enchantments:".toList ++ bracketed i.enchantmentsText)

def nameTag : Option (List Char) :=
  i.name.map fun name => "Name:".toList ++ textComponent limits name

def loreTag : Option (List Char) :=
  if i.lore = [] then none
  else some ("Lore:".toList ++ bracketed (commaSeparated (i.lore.map (textComponent limits))))

def displayTag : Option (List Char) :=
  if displayTags limits i = [] then none
  else some ("display:".toList ++ braced (commaSeparated (displayTags limits i)))

theorem displayTags_eq :
    displayTags limits i = (nameTag limits i).toList ++ (loreTag limits i).toList := by
  unfold displayTags nameTag loreTag
  cases i.name <;> by_cases h : i.lore = [] <;> simp [h]

variable {i}

theorem tags_eq (h : i.nbt = none) : tags limits i = i.damageTag.toList ++
    (i.unbreakableTag.toList ++ (i.enchantmentsTag.toList ++ (displayTag limits i).toList)) := by
  unfold tags damageTag unbreakableTag enchantmentsTag displayTag
  by_cases hdamage : i.damage = 0 <;> by_cases hunbreakable : i.unbreakable = true <;>
    by_cases henchantments : i.enchantments = [] <;>
    by_cases hdisplay : displayTags limits i = [] <;>
    simp [h, hdamage, hunbreakable, henchantments, hdisplay, enchantmentsText]

variable {t : List Char}

theorem damageTag_eq_some : i.damageTag = some t ↔
    i.damage ≠ 0 ∧ "Damage:".toList ++ digits i.damage = t := by
  rw [damageTag, Option.ite_none_left_eq_some, Option.some.injEq]

theorem unbreakableTag_eq_some : i.unbreakableTag = some t ↔
    i.unbreakable = true ∧ "Unbreakable:1b".toList = t := by
  rw [unbreakableTag, Option.ite_none_right_eq_some, Option.some.injEq]

theorem enchantmentsTag_eq_some : i.enchantmentsTag = some t ↔
    i.enchantments ≠ [] ∧ "Enchantments:".toList ++ bracketed i.enchantmentsText = t := by
  rw [enchantmentsTag, Option.ite_none_left_eq_some, Option.some.injEq]

variable {limits}

theorem loreTag_eq_some : loreTag limits i = some t ↔ i.lore ≠ [] ∧
    "Lore:".toList ++ bracketed (commaSeparated (i.lore.map (textComponent limits))) = t := by
  rw [loreTag, Option.ite_none_left_eq_some, Option.some.injEq]

theorem displayTag_eq_some : displayTag limits i = some t ↔ displayTags limits i ≠ [] ∧
    "display:".toList ++ braced (commaSeparated (displayTags limits i)) = t := by
  rw [displayTag, Option.ite_none_left_eq_some, Option.some.injEq]

theorem damageTag_head (h : t ∈ i.damageTag) : t.head? = some 'D' := by
  obtain ⟨_, rfl⟩ := damageTag_eq_some.1 h
  rfl

theorem unbreakableTag_head (h : t ∈ i.unbreakableTag) : t.head? = some 'U' := by
  obtain ⟨_, rfl⟩ := unbreakableTag_eq_some.1 h
  rfl

theorem enchantmentsTag_head (h : t ∈ i.enchantmentsTag) : t.head? = some 'E' := by
  obtain ⟨_, rfl⟩ := enchantmentsTag_eq_some.1 h
  rfl

theorem displayTag_head (h : t ∈ displayTag limits i) : t.head? = some 'd' := by
  obtain ⟨_, rfl⟩ := displayTag_eq_some.1 h
  rfl

theorem nameTag_head (h : t ∈ nameTag limits i) : t.head? = some 'N' := by
  obtain ⟨name, _, rfl⟩ := Option.map_eq_some_iff.1 h
  rfl

theorem loreTag_head (h : t ∈ loreTag limits i) : t.head? = some 'L' := by
  obtain ⟨_, rfl⟩ := loreTag_eq_some.1 h
  rfl

end Tags

/-! ### Where the enchantments end

An id may hold anything, so the end of the enchantments is found from the back: it is where the
last display entry starts. -/

section Display

/-- The display entry after another entry. -/
def StartsDisplay (cs : List Char) : Prop :=
  ",display:\x7bName:\x27".toList <+: cs ∨ ",display:\x7bLore:[\x27".toList <+: cs

/-- The character right before the first single quote. -/
def beforeQuote : List Char → Option Char
  | c :: d :: rest => if d = '\x27' then some c else beforeQuote (d :: rest)
  | _ => none

def NoDisplay (cs : List Char) : Prop := ∀ w, w <:+ cs → ¬ StartsDisplay w

variable {c : Char} {cs rest : List Char}

theorem StartsDisplay.quote (h : StartsDisplay cs) :
    beforeQuote cs = some ':' ∨ beforeQuote cs = some '[' := by
  obtain ⟨rest, rfl⟩ | ⟨rest, rfl⟩ := h
  · exact .inl rfl
  · exact .inr rfl

theorem StartsDisplay.comma (h : StartsDisplay (c :: cs)) : c = ',' ∧ cs.head? = some 'd' := by
  obtain ⟨rest, heq⟩ | ⟨rest, heq⟩ := h
  · cases heq
    exact ⟨rfl, rfl⟩
  · cases heq
    exact ⟨rfl, rfl⟩

theorem NoDisplay.cons (h : NoDisplay cs) (hc : ¬ StartsDisplay (c :: cs)) :
    NoDisplay (c :: cs) := by
  intro w hw
  obtain rfl | hw := List.suffix_cons_iff.1 hw
  · exact hc
  · exact h w hw

theorem NoDisplay.cons_ne (h : NoDisplay cs) (hc : c ≠ ',') : NoDisplay (c :: cs) :=
  h.cons fun hstarts => hc hstarts.comma.1

theorem NoDisplay.append (h : NoDisplay rest) (hcs : ',' ∉ cs) : NoDisplay (cs ++ rest) := by
  induction cs with
  | nil => exact h
  | cons c cs ih =>
    have hc : ',' ≠ c := List.ne_of_not_mem_cons hcs
    exact (ih (List.not_mem_of_not_mem_cons hcs)).cons_ne hc.symm

/-- Before the first quote that is met inside a line stands a backslash, or the end of the JSON
text. -/
theorem beforeQuote_line (c : Char) (json rest : List Char) :
    beforeQuote (c :: ((json ++ ['"']).flatMap tagChar ++ '\x27' :: rest)) = some '\\' ∨
      beforeQuote (c :: ((json ++ ['"']).flatMap tagChar ++ '\x27' :: rest)) = some '"' := by
  induction json generalizing c with
  | nil => exact .inr rfl
  | cons k json ih =>
    rw [List.cons_append, List.flatMap_cons, List.append_assoc]
    obtain ⟨htag, rfl | rfl⟩ | ⟨htag, _, hquote⟩ := tagChar_cases k
    · rw [htag]
      exact ih '\\'
    · exact .inl rfl
    · rw [htag, List.singleton_append, beforeQuote, if_neg hquote]
      exact ih k

theorem noDisplay_line (json : List Char) (h : NoDisplay ('\x27' :: rest)) :
    NoDisplay ((json ++ ['"']).flatMap tagChar ++ '\x27' :: rest) := by
  induction json with
  | nil => exact h.cons_ne (by decide)
  | cons k json ih =>
    rw [List.cons_append, List.flatMap_cons, List.append_assoc]
    obtain ⟨htag, hk⟩ | ⟨htag, _⟩ := tagChar_cases k
    · rw [htag]
      refine NoDisplay.cons_ne (ih.cons_ne ?_) (by decide)
      rintro rfl
      exact absurd hk (by decide)
    · rw [htag]
      refine ih.cons fun hstarts => ?_
      have hquote := beforeQuote_line k json rest
      obtain hcolon | hbracket := hstarts.quote
      · rw [hcolon] at hquote
        exact absurd hquote (by decide)
      · rw [hbracket] at hquote
        exact absurd hquote (by decide)

theorem noDisplay_component (limits : Limits) (line : String) (h : NoDisplay rest) :
    NoDisplay (textComponent limits line ++ rest) := by
  rw [textComponent_eq]
  simp only [List.cons_append, List.append_assoc, List.nil_append]
  refine NoDisplay.cons_ne ?_ (by decide)
  have hline := noDisplay_line ('"' :: Json.escape (colored limits line).toList)
    (h.cons_ne (c := '\x27') (by decide))
  exact hline

theorem noDisplay_lines (limits : Limits) (lines : List String) (h : NoDisplay rest) :
    NoDisplay (commaSeparated (lines.map (textComponent limits)) ++ rest) := by
  induction lines with
  | nil => exact h
  | cons line lines ih =>
    rw [List.map_cons, commaSeparated_cons]
    refine noDisplay_component limits line ?_
    cases lines with
    | nil => exact h
    | cons next lines =>
      refine ih.cons fun hstarts => ?_
      have hhead := hstarts.comma.2
      rw [List.map_cons, commaSeparated_cons, textComponent_eq] at hhead
      have hquote : '\x27' = 'd' := Option.some.inj hhead
      exact absurd hquote (by decide)

theorem noDisplay_lore {limits : Limits} {i : Item} {t : List Char} (ht : t ∈ loreTag limits i)
    (h : NoDisplay rest) : NoDisplay (t ++ rest) := by
  obtain ⟨_, rfl⟩ := loreTag_eq_some.1 ht
  have hlines := noDisplay_lines limits i.lore (h.cons_ne (c := ']') (by decide))
  have hstart : ',' ∉ "Lore:[".toList := by decide
  simpa [bracketed] using hlines.append hstart

theorem noDisplay_displayTags (limits : Limits) (i : Item) (h : NoDisplay rest) :
    NoDisplay (commaSeparated (displayTags limits i) ++ rest) := by
  rw [displayTags_eq]
  cases hname : nameTag limits i with
  | none =>
    cases hlore : loreTag limits i with
    | none => exact h
    | some t => exact noDisplay_lore hlore h
  | some s =>
    obtain ⟨name, _, rfl⟩ := Option.map_eq_some_iff.1 hname
    have hstart : ',' ∉ "Name:".toList := by decide
    rw [Option.toList_some, List.singleton_append, commaSeparated_cons, List.append_assoc]
    refine NoDisplay.append (noDisplay_component limits name ?_) hstart
    cases hlore : loreTag limits i with
    | none => exact h
    | some t =>
      refine (noDisplay_lore hlore h).cons fun hstarts => ?_
      have hhead := hstarts.comma.2
      have hfirst : (commaSeparated [t] ++ rest).head? = some 'L' := by
        rw [commaSeparated, List.head?_append, loreTag_head hlore]
        rfl
      cases hfirst.symm.trans hhead

theorem noDisplay_display {limits : Limits} {i : Item} {t : List Char}
    (ht : t ∈ displayTag limits i) (h : NoDisplay rest) : NoDisplay (t ++ rest) := by
  obtain ⟨_, rfl⟩ := displayTag_eq_some.1 ht
  have htags := noDisplay_displayTags limits i (h.cons_ne (c := '\x7d') (by decide))
  have hstart : ',' ∉ "display:\x7b".toList := by decide
  simpa [braced] using htags.append hstart

theorem startsDisplay_display {limits : Limits} {i : Item} {t : List Char}
    (ht : t ∈ displayTag limits i) (rest : List Char) : StartsDisplay (',' :: (t ++ rest)) := by
  obtain ⟨hsome, rfl⟩ := displayTag_eq_some.1 ht
  rw [displayTags_eq] at hsome ⊢
  rw [braced, List.append_assoc, List.cons_append, List.append_assoc]
  cases hname : nameTag limits i with
  | some s =>
    obtain ⟨name, _, rfl⟩ := Option.map_eq_some_iff.1 hname
    rw [Option.toList_some, List.singleton_append, commaSeparated_cons, textComponent_eq]
    exact .inl ⟨_, rfl⟩
  | none =>
    cases hlore : loreTag limits i with
    | none =>
      rw [hname, hlore] at hsome
      exact absurd rfl hsome
    | some s =>
      obtain ⟨hlines, rfl⟩ := loreTag_eq_some.1 hlore
      obtain ⟨line, lines, hl⟩ := List.exists_cons_of_ne_nil hlines
      rw [Option.toList_none, List.nil_append, Option.toList_some, commaSeparated, bracketed, hl,
        List.map_cons, commaSeparated_cons, textComponent_eq]
      exact .inr ⟨_, rfl⟩

end Display

section End
variable {limits : Limits} {a b : Item}

/-- The end of the text from the enchantments on. -/
def ending (limits : Limits) (i : Item) : List Char :=
  following (displayTag limits i).toList ['\x7d', '\x7d']

theorem ending_head (limits : Limits) (i : Item) : (ending limits i).head? ≠ some ']' := by
  rw [ending, following]
  split
  · decide
  · simp

theorem displayTag_last {t : List Char} (h : t ∈ displayTag limits a) :
    t.getLast? = some '\x7d' := by
  obtain ⟨_, rfl⟩ := displayTag_eq_some.1 h
  have hconcat (cs : List Char) :
      "display:".toList ++ braced cs = ("display:\x7b".toList ++ cs) ++ ['\x7d'] := by
    simp [braced]
  rw [hconcat, List.getLast?_concat]

theorem ending_of_display {t : List Char} (h : displayTag limits a = some t) :
    ending limits a = ',' :: (t ++ ['\x7d', '\x7d']) := by
  rw [ending, h]
  rfl

theorem noDisplay_braces : NoDisplay ['\x7d', '\x7d'] := by
  have hnil : NoDisplay [] := by
    intro w hw hstarts
    rw [List.suffix_nil.1 hw] at hstarts
    cases hstarts.quote with
    | inl h => cases h
    | inr h => cases h
  exact (hnil.cons_ne (by decide)).cons_ne (by decide)

/-- No ending stands at the end of another one after a bracket. -/
theorem ending_not_longer {w : List Char} : ending limits b ≠ w ++ ']' :: ending limits a := by
  intro h
  cases w with
  | nil =>
    have hhead := ending_head limits b
    rw [h] at hhead
    exact hhead rfl
  | cons c w =>
    cases hb : displayTag limits b with
    | none =>
      have hmem : ']' ∈ ending limits b := by simp [h]
      rw [ending, hb] at hmem
      exact absurd hmem (by decide)
    | some t =>
      rw [ending_of_display hb] at h
      have htail : t ++ ['\x7d', '\x7d'] = (w ++ [']']) ++ ending limits a := by
        rw [List.append_assoc, List.singleton_append]
        exact (List.cons.inj h).2
      cases ha : displayTag limits a with
      | none =>
        rw [ending, ha] at htail
        have hlast := displayTag_last hb
        rw [List.append_cancel_right htail, List.getLast?_concat] at hlast
        cases hlast
      | some s =>
        have hsuffix : ending limits a <:+ t ++ ['\x7d', '\x7d'] := ⟨_, htail.symm⟩
        refine noDisplay_display hb noDisplay_braces _ hsuffix ?_
        rw [ending_of_display ha]
        exact startsDisplay_display ha _

theorem ending_cancel {u v : List Char}
    (h : u ++ ']' :: ending limits a = v ++ ']' :: ending limits b) :
    u = v ∧ ending limits a = ending limits b := by
  obtain ⟨w, hv, hw⟩ | ⟨w, hu, hw⟩ := List.append_eq_append_iff.1 h
  · cases w with
    | nil =>
      rw [List.append_nil] at hv
      exact ⟨hv.symm, (List.cons.inj hw).2⟩
    | cons c w => exact absurd (List.cons.inj hw).2 ending_not_longer
  · cases w with
    | nil =>
      rw [List.append_nil] at hu
      exact ⟨hu, (List.cons.inj hw).2.symm⟩
    | cons c w => exact absurd (List.cons.inj hw).2 ending_not_longer

end End
end BlockTemplate.Item
