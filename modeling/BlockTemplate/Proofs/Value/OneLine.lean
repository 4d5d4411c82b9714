import BlockTemplate.Proofs.Decimal.Digits
import BlockTemplate.Value.Display

/-! Values are shown on one line. Texts are in quotes and have their line feeds escaped; only the
names of variables are shown as they are. -/
namespace BlockTemplate
open Decimal (unsignedZero)
open Text (quoted quotedChar joinWith)

/-- A text without a line feed. -/
def OneLine (s : String) : Prop := '\n' ∉ s.toList

theorem oneLine_append {s t : String} : OneLine (s ++ t) ↔ OneLine s ∧ OneLine t := by
  simp [OneLine]

theorem oneLine_joinWith {texts : List String} (h : ∀ t ∈ texts, OneLine t) :
    OneLine (joinWith ", " texts) := by
  have hsep : OneLine ", " := by simp [OneLine]
  induction texts with
  | nil => simp [joinWith, OneLine]
  | cons t rest ih =>
    obtain ⟨ht, hrest⟩ := List.forall_mem_cons.1 h
    cases rest with
    | nil => exact ht
    | cons u others => exact oneLine_append.2 ⟨oneLine_append.2 ⟨ht, hsep⟩, ih hrest⟩

theorem lineFeed_not_mem_toDigits (base : Nat) (hbase : 1 < base) (hsmall : base ≤ 16) (n : Nat) :
    '\n' ∉ Nat.toDigits base n := by
  have hdigit : ∀ k < 16, '\n' ≠ Nat.digitChar k := by decide
  induction n using Nat.strongRecOn with
  | ind n ih =>
    rw [Nat.toDigits_eq_if hbase]
    split
    · next hlt =>
      rw [List.mem_singleton]
      exact hdigit n (by omega)
    · next hge =>
      have hless : n / base < n := Nat.div_lt_self (by omega) hbase
      have hrest : n % base < base := Nat.mod_lt n (by omega)
      rw [List.mem_append, List.mem_singleton, not_or]
      exact ⟨ih (n / base) hless, hdigit (n % base) (by omega)⟩

@[simp] theorem lineFeed_not_mem_decimal (n : Nat) : '\n' ∉ Nat.toDigits 10 n :=
  lineFeed_not_mem_toDigits 10 (by decide) (by decide) n

theorem lineFeed_not_mem_quotedChar (c : Char) : '\n' ∉ quotedChar c := by
  have hdigits := lineFeed_not_mem_toDigits 16 (by decide) (by decide) c.toNat
  fun_cases quotedChar c with
  | case7 _ _ hfeed => simpa [eq_comm] using hfeed
  | case8 => simp [hdigits]
  | _ => simp

@[simp] theorem lineFeed_not_mem_quoted (s : String) : '\n' ∉ (quoted s).toList := by
  simp [quoted, Text.quotedChars, lineFeed_not_mem_quotedChar]

namespace Decimal

theorem lineFeed_not_mem_shortest (tie : Tie) (b : Binary) : '\n' ∉ (shortest tie b).digits := by
  intro h
  have hreverse := (List.dropWhile_sublist _).mem (List.mem_reverse.1 h)
  exact lineFeed_not_mem_decimal _ (List.mem_reverse.1 hreverse)

theorem lineFeed_not_mem_positional {d : Digits} (h : '\n' ∉ d.digits) : '\n' ∉ positional d := by
  have hzeros : ∀ n, '\n' ∉ zeros n := fun n hn => absurd (List.eq_of_mem_replicate hn) (by decide)
  have htake : ∀ n, '\n' ∉ d.digits.take n := fun n hn => h (List.mem_of_mem_take hn)
  have hdrop : ∀ n, '\n' ∉ d.digits.drop n := fun n hn => h (List.mem_of_mem_drop hn)
  fun_cases positional d with
  | case1 => simp [hzeros, h]
  | case2 => simp [hzeros, h]
  | case3 => simp [htake, hdrop]

theorem lineFeed_not_mem_plain (x : Float) : '\n' ∉ (plain x).toList := by
  have hsign : ∀ b, '\n' ∉ signChars b := by
    intro b
    fun_cases signChars b <;> simp
  have hdigits := fun b => lineFeed_not_mem_positional (lineFeed_not_mem_shortest .up b)
  fun_cases plain x with
  | case4 => simp [hsign]
  | case5 => simp [hsign, hdigits]
  | _ => simp

@[simp] theorem lineFeed_not_mem_unsignedZero (x : Float) : '\n' ∉ (unsignedZero x).toList := by
  fun_cases unsignedZero x with
  | case1 => simp
  | case2 => exact lineFeed_not_mem_plain x

end Decimal

@[simp] theorem lineFeed_mem_withField {label : String} {text : Option String} :
    '\n' ∈ (withField label text).toList ↔
      ∃ t, text = some t ∧ ('\n' ∈ label.toList ∨ '\n' ∈ t.toList) := by
  cases text with
  | none => simp [withField]
  | some t => simp [withField]

theorem Location.oneLine_display (l : Location) : OneLine l.display := by
  simp [OneLine, Location.display]

theorem Vector3.oneLine_display (v : Vector3) : OneLine v.display := by
  simp [OneLine, Vector3.display]

theorem Item.oneLine_display (i : Item) : OneLine i.display := by
  simp [OneLine, Item.display]

theorem Sound.oneLine_display (s : Sound) : OneLine s.display := by
  simp [OneLine, Sound.display]

theorem Potion.oneLine_display (p : Potion) : OneLine p.display := by
  simp [OneLine, Potion.display]

theorem Target.oneLine_name (t : Target) : OneLine t.name := by
  cases t <;> simp [OneLine, Target.name]

theorem GameValue.oneLine_display (g : GameValue) : OneLine g.display := by
  have htarget : '\n' ∉ g.target.name.toList := g.target.oneLine_name
  simp [OneLine, GameValue.display, htarget]

theorem VarRef.oneLine_display {v : VarRef} (h : OneLine v.name) : OneLine v.display := by
  have hword : '\n' ∉ v.scope.word.toList := by cases v.scope <;> simp [VariableClass.word]
  have hname : '\n' ∉ v.name.toList := h
  simp [OneLine, VarRef.display, hword, hname]

namespace Value

mutual

/-- Whatever texts a value holds, at any depth, only names of variables can break its line. -/
theorem oneLine_display (v : Value) (h : ∀ r ∈ v.varRefs, OneLine r.name) : OneLine v.display := by
  match v with
  | .text s => exact lineFeed_not_mem_quoted s
  | .number x => exact Decimal.lineFeed_not_mem_unsignedZero x
  | .location l => exact l.oneLine_display
  | .vector v => exact v.oneLine_display
  | .item i => exact i.oneLine_display
  | .sound s => exact s.oneLine_display
  | .potion p => exact p.oneLine_display
  | .particle name => simp [OneLine, display]
  | .gameValue g => exact g.oneLine_display
  | .variable v => exact VarRef.oneLine_display (h v List.mem_cons_self)
  | .list items =>
    have hjoined := oneLine_joinWith (oneLine_displayList items h)
    simpa [OneLine, display] using hjoined
  | .dict entries =>
    have hjoined := oneLine_joinWith (oneLine_displayEntries entries h)
    simpa [OneLine, display] using hjoined

theorem oneLine_displayList (items : List Value)
    (h : ∀ r ∈ varRefsOfList items, OneLine r.name) : ∀ t ∈ displayList items, OneLine t := by
  match items with
  | [] => simp [displayList]
  | v :: rest =>
    obtain ⟨hv, hrest⟩ := List.forall_mem_append.1 h
    exact List.forall_mem_cons.2 ⟨v.oneLine_display hv, oneLine_displayList rest hrest⟩

theorem oneLine_displayEntries (entries : List (String × Value))
    (h : ∀ r ∈ varRefsOfEntries entries, OneLine r.name) :
    ∀ t ∈ displayEntries entries, OneLine t := by
  match entries with
  | [] => simp [displayEntries]
  | (key, v) :: rest =>
    obtain ⟨hv, hrest⟩ := List.forall_mem_append.1 h
    refine List.forall_mem_cons.2 ⟨?_, oneLine_displayEntries rest hrest⟩
    have hvalue := v.oneLine_display hv
    simpa [OneLine] using hvalue

end

end Value
end BlockTemplate
