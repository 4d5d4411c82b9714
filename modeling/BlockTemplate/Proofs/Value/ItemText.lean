import BlockTemplate.Proofs.Value.Rules
import BlockTemplate.Proofs.Value.TagEntries

/-! What the text of an item tells. All parts of an item without raw tags can be read off it, with
one exception: the ids of enchantments stand between double quotes as they are, so that one
enchantment can be written like several. -/
namespace BlockTemplate.Item

section Parts
variable {limits : Limits} {a b : Item}

theorem following_not_digit {xs : List (List Char)} {c : List Char} (hc : c.head? = some '\x7d') :
    ∀ d ∈ (following xs c).head?, Decimal.isDigit d = false := by
  rw [following]
  split
  · rw [hc]
    rintro d ⟨⟩
    rfl
  · rintro d ⟨⟩
    rfl

/-- Entries that come later in the fixed order. -/
def laterTags (limits : Limits) (i : Item) : List (List Char) :=
  i.unbreakableTag.toList ++ (i.enchantmentsTag.toList ++ (displayTag limits i).toList)

theorem damage_cancel
    (h : commaSeparated (a.damageTag.toList ++ laterTags limits a) ++ ['\x7d', '\x7d'] =
      commaSeparated (b.damageTag.toList ++ laterTags limits b) ++ ['\x7d', '\x7d']) :
    a.damage = b.damage ∧ commaSeparated (laterTags limits a) ++ ['\x7d', '\x7d'] =
      commaSeparated (laterTags limits b) ++ ['\x7d', '\x7d'] := by
  have hlater (i : Item) : ∀ t ∈ laterTags limits i, ∃ first ∈ t.head?, first ≠ 'D' := by
    intro t ht
    simp only [laterTags, List.mem_append, Option.mem_toList] at ht
    obtain ht | ht | ht := ht
    · exact ⟨'U', unbreakableTag_head ht, by decide⟩
    · exact ⟨'E', enchantmentsTag_head ht, by decide⟩
    · exact ⟨'d', displayTag_head ht, by decide⟩
  refine optional_cancel 'D' (fun _ => damageTag_head) (fun _ => damageTag_head) (hlater a)
    (hlater b) rfl (by decide) (fun ha hb => ?_) (fun s t ha hb hst => ?_) h
  · simp only [damageTag, ite_eq_left_iff, reduceCtorEq, imp_false, not_not] at ha hb
    rw [ha, hb]
  · obtain ⟨_, rfl⟩ := damageTag_eq_some.1 ha
    obtain ⟨_, rfl⟩ := damageTag_eq_some.1 hb
    rw [List.append_assoc, List.append_assoc] at hst
    exact digits_cancel (following_not_digit rfl) (following_not_digit rfl)
      (List.append_cancel_left hst)

theorem unbreakable_cancel
    (h : commaSeparated (laterTags limits a) ++ ['\x7d', '\x7d'] =
      commaSeparated (laterTags limits b) ++ ['\x7d', '\x7d']) :
    a.unbreakable = b.unbreakable ∧
      commaSeparated (a.enchantmentsTag.toList ++ (displayTag limits a).toList) ++
        ['\x7d', '\x7d'] =
      commaSeparated (b.enchantmentsTag.toList ++ (displayTag limits b).toList) ++
        ['\x7d', '\x7d'] := by
  have hlater (i : Item) : ∀ t ∈ i.enchantmentsTag.toList ++ (displayTag limits i).toList,
      ∃ first ∈ t.head?, first ≠ 'U' := by
    intro t ht
    simp only [List.mem_append, Option.mem_toList] at ht
    obtain ht | ht := ht
    · exact ⟨'E', enchantmentsTag_head ht, by decide⟩
    · exact ⟨'d', displayTag_head ht, by decide⟩
  refine optional_cancel 'U' (fun _ => unbreakableTag_head) (fun _ => unbreakableTag_head)
    (hlater a) (hlater b) rfl (by decide) (fun ha hb => ?_) (fun s t ha hb hst => ?_) h
  · simp only [unbreakableTag, ite_eq_right_iff, reduceCtorEq, imp_false] at ha hb
    rw [Bool.not_eq_true] at ha hb
    rw [ha, hb]
  · obtain ⟨hua, rfl⟩ := unbreakableTag_eq_some.1 ha
    obtain ⟨hub, rfl⟩ := unbreakableTag_eq_some.1 hb
    exact ⟨hua.trans hub.symm, List.append_cancel_left hst⟩

theorem enchantments_cancel
    (h : commaSeparated (a.enchantmentsTag.toList ++ (displayTag limits a).toList) ++
        ['\x7d', '\x7d'] =
      commaSeparated (b.enchantmentsTag.toList ++ (displayTag limits b).toList) ++
        ['\x7d', '\x7d']) :
    ((a.enchantments = [] ↔ b.enchantments = []) ∧ a.enchantmentsText = b.enchantmentsText) ∧
      commaSeparated (displayTag limits a).toList ++ ['\x7d', '\x7d'] =
        commaSeparated (displayTag limits b).toList ++ ['\x7d', '\x7d'] := by
  have hlater (i : Item) : ∀ t ∈ (displayTag limits i).toList, ∃ first ∈ t.head?, first ≠ 'E' :=
    fun t ht => ⟨'d', displayTag_head (Option.mem_toList.1 ht), by decide⟩
  refine optional_cancel 'E' (fun _ => enchantmentsTag_head) (fun _ => enchantmentsTag_head)
    (hlater a) (hlater b) rfl (by decide) (fun ha hb => ?_) (fun s t ha hb hst => ?_) h
  · simp only [enchantmentsTag, ite_eq_left_iff, reduceCtorEq, imp_false, not_not] at ha hb
    rw [enchantmentsText, enchantmentsText, ha, hb]
    exact ⟨Iff.rfl, rfl⟩
  · obtain ⟨hea, rfl⟩ := enchantmentsTag_eq_some.1 ha
    obtain ⟨heb, rfl⟩ := enchantmentsTag_eq_some.1 hb
    rw [List.append_assoc, List.append_assoc, bracketed_append, bracketed_append] at hst
    obtain ⟨htext, hending⟩ := ending_cancel (List.cons.inj (List.append_cancel_left hst)).2
    exact ⟨⟨iff_of_false hea heb, htext⟩, hending⟩

theorem display_cancel
    (h : commaSeparated (displayTag limits a).toList ++ ['\x7d', '\x7d'] =
      commaSeparated (displayTag limits b).toList ++ ['\x7d', '\x7d']) :
    commaSeparated (displayTags limits a) ++ ['\x7d', '\x7d', '\x7d'] =
      commaSeparated (displayTags limits b) ++ ['\x7d', '\x7d', '\x7d'] := by
  rw [← List.append_nil (displayTag limits a).toList,
    ← List.append_nil (displayTag limits b).toList] at h
  refine (optional_cancel 'd' (fun _ => displayTag_head) (fun _ => displayTag_head) (by simp)
    (by simp) rfl (by decide) (fun ha hb => ?_) (fun s t ha hb hst => ?_) h).1
  · simp only [displayTag, ite_eq_left_iff, reduceCtorEq, imp_false, not_not] at ha hb
    rw [ha, hb]
  · obtain ⟨_, rfl⟩ := displayTag_eq_some.1 ha
    obtain ⟨_, rfl⟩ := displayTag_eq_some.1 hb
    rw [List.append_assoc, List.append_assoc, braced_append, braced_append] at hst
    exact ⟨(List.cons.inj (List.append_cancel_left hst)).2, rfl⟩

theorem name_cancel
    (h : commaSeparated (displayTags limits a) ++ ['\x7d', '\x7d', '\x7d'] =
      commaSeparated (displayTags limits b) ++ ['\x7d', '\x7d', '\x7d']) :
    a.name.map (colored limits) = b.name.map (colored limits) ∧
      commaSeparated (loreTag limits a).toList ++ ['\x7d', '\x7d', '\x7d'] =
        commaSeparated (loreTag limits b).toList ++ ['\x7d', '\x7d', '\x7d'] := by
  have hlater (i : Item) : ∀ t ∈ (loreTag limits i).toList, ∃ first ∈ t.head?, first ≠ 'N' :=
    fun t ht => ⟨'L', loreTag_head (Option.mem_toList.1 ht), by decide⟩
  rw [displayTags_eq, displayTags_eq] at h
  refine optional_cancel 'N' (fun _ => nameTag_head) (fun _ => nameTag_head) (hlater a)
    (hlater b) rfl (by decide) (fun ha hb => ?_) (fun s t ha hb hst => ?_) h
  · rw [Option.map_eq_none_iff.1 ha, Option.map_eq_none_iff.1 hb]
  · obtain ⟨name, hna, rfl⟩ := Option.map_eq_some_iff.1 ha
    obtain ⟨other, hnb, rfl⟩ := Option.map_eq_some_iff.1 hb
    rw [List.append_assoc, List.append_assoc] at hst
    obtain ⟨hname, hrest⟩ := textComponent_cancel (List.append_cancel_left hst)
    rw [hna, hnb, Option.map_some, Option.map_some, hname]
    exact ⟨rfl, hrest⟩

theorem lore_cancel
    (h : commaSeparated (loreTag limits a).toList ++ ['\x7d', '\x7d', '\x7d'] =
      commaSeparated (loreTag limits b).toList ++ ['\x7d', '\x7d', '\x7d']) :
    a.lore.map (colored limits) = b.lore.map (colored limits) := by
  rw [← List.append_nil (loreTag limits a).toList,
    ← List.append_nil (loreTag limits b).toList] at h
  refine (optional_cancel 'L' (fun _ => loreTag_head) (fun _ => loreTag_head) (by simp)
    (by simp) rfl (by decide) (fun ha hb => ?_) (fun s t ha hb hst => ?_) h).1
  · simp only [loreTag, ite_eq_left_iff, reduceCtorEq, imp_false, not_not] at ha hb
    rw [ha, hb]
  · obtain ⟨hla, rfl⟩ := loreTag_eq_some.1 ha
    obtain ⟨hlb, rfl⟩ := loreTag_eq_some.1 hb
    rw [List.append_assoc, List.append_assoc, bracketed_append, bracketed_append] at hst
    have hlines := list_cancel (fun _ => True) (fun _ _ _ _ _ _ => textComponent_cancel)
      (by simp) (by simp) hla hlb (by simp) (by simp)
      (List.cons.inj (List.append_cancel_left hst)).2
    exact ⟨hlines.1, rfl⟩

/-- What follows the count. -/
def tagPart (limits : Limits) (i : Item) : List Char :=
  if tags limits i = [] then ['\x7d']
  else ",tag:\x7b".toList ++ (commaSeparated (tags limits i) ++ ['\x7d', '\x7d'])

theorem textChars_eq (limits : Limits) (i : Item) :
    textChars limits i = "\x7bid:\"".toList ++ (namespaced i.material ++
      '"' :: (",Count:".toList ++ (digits i.count ++ 'b' :: tagPart limits i))) := by
  rw [textChars, tagPart]
  by_cases h : tags limits i = []
  · simp [braced, h]
  · simp [braced, h]

theorem tagPart_cancel (h : tagPart limits a = tagPart limits b) :
    commaSeparated (tags limits a) ++ ['\x7d', '\x7d'] =
      commaSeparated (tags limits b) ++ ['\x7d', '\x7d'] := by
  unfold tagPart at h
  split at h
  · next ha =>
    split at h
    · next hb => rw [ha, hb]
    · cases h
  · split at h
    · cases h
    · exact List.append_cancel_left h

theorem not_quote_of_namespaced {id : String} (h : '"' ∉ id.toList) :
    ∀ c ∈ namespaced id, (c != '"') = true := by
  intro c hc
  rw [bne_iff_ne]
  rintro rfl
  rw [namespaced] at hc
  split at hc
  · exact h hc
  · obtain hc | hc := List.mem_append.1 hc
    · exact absurd hc (by decide)
    · exact h hc

theorem check_material {i : Item} (h : i.check limits = .ok ()) : '"' ∉ i.material.toList := by
  intro hquote
  have hrule : materialRule i.material '"' ∈ i.rules limits := by
    simp only [rules, List.mem_append]
    exact .inl (.inl (.inl (.inl (.inr (List.mem_map_of_mem hquote)))))
  have hchar : isIdChar '"' = true := (i.check_follows limits).of_ok h _ hrule
  exact absurd hchar (by decide)

theorem textChars_cancel (ha : '"' ∉ a.material.toList) (hb : '"' ∉ b.material.toList)
    (h : textChars limits a = textChars limits b) :
    namespaced a.material = namespaced b.material ∧ a.count = b.count ∧
      tagPart limits a = tagPart limits b := by
  rw [textChars_eq, textChars_eq] at h
  obtain ⟨hmaterial, hrest⟩ := cancel_while (not_quote_of_namespaced ha)
    (not_quote_of_namespaced hb) (by simp) (by simp) (List.append_cancel_left h)
  have hcount := List.append_cancel_left (List.cons.inj hrest).2
  obtain ⟨hcount, hrest⟩ := digits_cancel (by simp [Decimal.isDigit]) (by simp [Decimal.isDigit])
    hcount
  exact ⟨hmaterial, hcount, (List.cons.inj hrest).2⟩

/-- What the text of an enchantment is made from. -/
def told (e : Enchantment) : List Char × Nat := (namespaced e.id, e.level)

theorem enchantmentTag_cancel (e f : Enchantment) (r s : List Char) (he : '"' ∉ e.id.toList)
    (hf : '"' ∉ f.id.toList) (h : enchantmentTag e ++ r = enchantmentTag f ++ s) :
    told e = told f ∧ r = s := by
  have htag (e : Enchantment) (r : List Char) : enchantmentTag e ++ r =
      "\x7bid:\"".toList ++ (namespaced e.id ++
        '"' :: (",lvl:".toList ++ (digits e.level ++ 's' :: '\x7d' :: r))) := by
    simp [enchantmentTag, braced]
  rw [htag, htag] at h
  obtain ⟨hid, hrest⟩ := cancel_while (not_quote_of_namespaced he)
    (not_quote_of_namespaced hf) (by simp) (by simp) (List.append_cancel_left h)
  have hlevel := List.append_cancel_left (List.cons.inj hrest).2
  obtain ⟨hlevel, hrest⟩ := digits_cancel (by simp [Decimal.isDigit]) (by simp [Decimal.isDigit])
    hlevel
  refine ⟨by rw [told, told, hid, hlevel], ?_⟩
  exact (List.cons.inj (List.cons.inj hrest).2).2

theorem enchantmentsText_cancel (hnone : a.enchantments = [] ↔ b.enchantments = [])
    (ha : ∀ e ∈ a.enchantments, '"' ∉ e.id.toList) (hb : ∀ e ∈ b.enchantments, '"' ∉ e.id.toList)
    (h : a.enchantmentsText = b.enchantmentsText) :
    a.enchantments.map told = b.enchantments.map told := by
  by_cases hempty : a.enchantments = []
  · rw [hempty, hnone.1 hempty]
  · refine (list_cancel (fun e => '"' ∉ e.id.toList) enchantmentTag_cancel ha hb hempty
      (fun hb => hempty (hnone.2 hb)) (c := []) (d := []) (by simp) (by simp) ?_).1
    rw [List.append_nil, List.append_nil]
    exact h

end Parts

/-! ### Enchantments that are told as one -/

section Joining
variable {limits : Limits}

/-- One enchantment with the text of two. -/
def joined (e f : Enchantment) : Enchantment :=
  { id := String.ofList (namespaced e.id ++ "\",lvl:".toList ++ digits e.level ++
      "s\x7d,\x7bid:\"".toList ++ namespaced f.id)
    level := f.level }

theorem colon_mem_namespaced (id : String) : ':' ∈ namespaced id := by
  rw [namespaced]
  split
  · next h => simpa using h
  · exact List.mem_append_left _ (by decide)

theorem namespaced_joined (e f : Enchantment) : namespaced (joined e f).id =
    namespaced e.id ++ "\",lvl:".toList ++ digits e.level ++ "s\x7d,\x7bid:\"".toList ++
      namespaced f.id := by
  have hcolon : (joined e f).id.toList.contains ':' = true := by
    simp [joined, colon_mem_namespaced]
  rw [namespaced, if_pos hcolon]
  simp [joined]

theorem commaSeparated_joined (e f : Enchantment) (rest : List Enchantment) :
    commaSeparated ((joined e f :: rest).map enchantmentTag) =
      commaSeparated ((e :: f :: rest).map enchantmentTag) := by
  have hcons (x : List Char) (xs : List (List Char)) :
      commaSeparated (x :: xs) = x ++ following xs [] := by
    rw [← commaSeparated_cons, List.append_nil]
  have hjoined : enchantmentTag (joined e f) = enchantmentTag e ++ ',' :: enchantmentTag f := by
    rw [enchantmentTag, namespaced_joined]
    simp [enchantmentTag, braced, joined]
  rw [List.map_cons, List.map_cons, List.map_cons, hcons, hcons, hjoined]
  simp [following, hcons]

theorem tagText_joined {i : Item} {e f : Enchantment} {rest : List Enchantment}
    (h : i.enchantments = e :: f :: rest) :
    tagText limits { i with enchantments := joined e f :: rest } = tagText limits i := by
  have htags : tags limits { i with enchantments := joined e f :: rest } = tags limits i := by
    simp only [tags, h, commaSeparated_joined]
    rfl
  simp only [tagText, textChars, htags]

theorem check_joined {i : Item} {e f : Enchantment} {rest : List Enchantment}
    (h : i.enchantments = e :: f :: rest) (hcheck : i.check limits = .ok ()) :
    check limits { i with enchantments := joined e f :: rest } = .ok () := by
  have hall := (i.check_follows limits).of_ok hcheck
  simp only [rules, h, List.flatMap_cons, List.mem_append, or_imp, forall_and] at hall
  obtain ⟨⟨hfields, _, hf, hrest⟩, hnbt⟩ := hall
  have hid : (joined e f).id ≠ "" := by
    intro hempty
    have hcolon : ':' ∈ (joined e f).id.toList := by
      simp [joined, colon_mem_namespaced]
    rw [hempty] at hcolon
    cases hcolon
  have hjoined : ∀ r ∈ (joined e f).rules, r.holds := by
    refine List.forall_mem_cons.2 ⟨hid, ?_⟩
    exact (List.forall_mem_cons.1 hf).2
  refine (((check_follows limits _).exists_ok ?_).elim fun _ => id)
  simp only [rules, List.flatMap_cons, List.mem_append, or_imp, forall_and]
  exact ⟨⟨hfields, hjoined, hrest⟩, hnbt⟩

end Joining

/-- Two items agree in everything that their texts tell besides the enchantments. -/
structure Alike (limits : Limits) (a b : Item) : Prop where
  material : namespaced a.material = namespaced b.material
  count : a.count = b.count
  damage : a.damage = b.damage
  unbreakable : a.unbreakable = b.unbreakable
  name : a.name.map (colored limits) = b.name.map (colored limits)
  lore : a.lore.map (colored limits) = b.lore.map (colored limits)

/-- Accepted items without raw tags that have the same text agree in all that is written, the
enchantments apart. They agree in these as well if no id holds a double quote. But the text of two
enchantments is that of a single one too, and this is accepted. -/
theorem tagText_tells (limits : Limits) :
    (∀ a b : Item, a.nbt = none → b.nbt = none → a.check limits = .ok () →
      b.check limits = .ok () → a.tagText limits = b.tagText limits →
      Alike limits a b ∧ a.enchantmentsText = b.enchantmentsText ∧
        ((∀ e ∈ a.enchantments, '"' ∉ e.id.toList) → (∀ e ∈ b.enchantments, '"' ∉ e.id.toList) →
          a.enchantments.map told = b.enchantments.map told)) ∧
    ∀ (i : Item) (e f : Enchantment) (rest : List Enchantment), i.enchantments = e :: f :: rest →
      i.check limits = .ok () →
      check limits { i with enchantments := joined e f :: rest } = .ok () ∧
        tagText limits { i with enchantments := joined e f :: rest } = i.tagText limits := by
  refine ⟨fun a b hnbta hnbtb ha hb h => ?_, fun i e f rest henchantments hcheck => ?_⟩
  · have hchars : textChars limits a = textChars limits b := String.ofList_inj.1 h
    obtain ⟨hmaterial, hcount, hpart⟩ :=
      textChars_cancel (check_material ha) (check_material hb) hchars
    have htags := tagPart_cancel hpart
    rw [tags_eq limits hnbta, tags_eq limits hnbtb] at htags
    obtain ⟨hdamage, htags⟩ := damage_cancel htags
    obtain ⟨hunbreakable, htags⟩ := unbreakable_cancel htags
    obtain ⟨⟨hnone, htext⟩, htags⟩ := enchantments_cancel htags
    obtain ⟨hname, hlore⟩ := name_cancel (display_cancel htags)
    exact ⟨⟨hmaterial, hcount, hdamage, hunbreakable, hname, lore_cancel hlore⟩, htext,
      fun hqa hqb => enchantmentsText_cancel hnone hqa hqb htext⟩
  · exact ⟨check_joined henchantments hcheck, tagText_joined henchantments⟩

def blade : Item :=
  { material := "diamond_sword", name := some "&6O'Neil", lore := ["\"sharp\""]
    enchantments := [⟨"sharpness", 3⟩] }

/-- The same with namespaces and color codes written out. -/
def spelledBlade : Item :=
  { material := "minecraft:diamond_sword", name := some "§6O'Neil", lore := ["\"sharp\""]
    enchantments := [⟨"minecraft:sharpness", 3⟩] }

theorem tagText_tells_blade :
    blade.tagText {} = spelledBlade.tagText {} ∧ Alike {} blade spelledBlade ∧
      blade.enchantments.map told = spelledBlade.enchantments.map told := by
  have htext : blade.tagText {} = spelledBlade.tagText {} := by decide +kernel
  obtain ⟨halike, _, henchantments⟩ :=
    (tagText_tells {}).1 blade spelledBlade rfl rfl rfl rfl htext
  refine ⟨htext, halike, henchantments ?_ ?_⟩
  · exact List.forall_mem_singleton.2 (by decide)
  · exact List.forall_mem_singleton.2 (by decide)

/-- An id that closes its own quotes passes for a second enchantment. -/
theorem tagText_sharp_unbreaking : ∃ a b : Item, a.nbt = none ∧ b.nbt = none ∧
    a.check {} = .ok () ∧ b.check {} = .ok () ∧ a.tagText {} = b.tagText {} ∧
    a.enchantments = [⟨"sharpness", 3⟩, ⟨"unbreaking", 1⟩] ∧
    b.enchantments = [⟨"minecraft:sharpness\",lvl:3s\x7d,\x7bid:\"minecraft:unbreaking", 1⟩] ∧
    a.enchantments.map told ≠ b.enchantments.map told := by
  refine ⟨{ material := "stone", enchantments := [⟨"sharpness", 3⟩, ⟨"unbreaking", 1⟩] },
    { material := "stone", enchantments :=
      [⟨"minecraft:sharpness\",lvl:3s\x7d,\x7bid:\"minecraft:unbreaking", 1⟩] },
    rfl, rfl, rfl, rfl, by decide +kernel, rfl, rfl, fun h => ?_⟩
  exact absurd (congrArg List.length h) (by decide)

end BlockTemplate.Item
