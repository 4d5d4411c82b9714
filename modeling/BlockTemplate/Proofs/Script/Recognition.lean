import BlockTemplate.Proofs.Script.Agreement
import BlockTemplate.Proofs.Script.Soundness

/-! The parser reads exactly what the grammar allows, and the grammar allows one reading only. -/
namespace BlockTemplate.Script

/-- Statements are read up to the end. -/
theorem Parse.statements_rest (size n : Nat) (c : Cursor) :
    Meets (fun r : List (Located Statement) × Cursor => r.2.rest = []) (fun _ => True)
      (statements size n c) := by
  induction n generalizing c with
  | zero => trivial
  | succ n ih =>
    have hany : ∀ {α : Type} (p : Parse α) (d : Cursor),
        Meets (fun _ : α × Cursor => True) (fun _ => True) (p d) := by
      intro α p d
      cases p d <;> trivial
    have hend : Meets (fun r : Bool × Cursor => r = (c.rest.isEmpty, c)) (fun _ => True)
        (atEnd c) := by
      rw [atEnd_eq]
      rfl
    refine hend.bind ?_
    rintro _ rfl
    cases hempty : c.rest.isEmpty with
    | true => exact List.isEmpty_iff.1 hempty
    | false =>
      refine (hany _ _).bind fun first _ => (hany _ _).bind fun item _ => ?_
      exact (ih _).bind fun others hothers => hothers

theorem statements_outcome (c : Cursor) :
    Reads true ScriptForm (fun n => Parse.statements (n + 1) (n + 1)) c :=
  Parse.statements_reads id Nat.le_refl c

theorem parseTokens_eq_ok {length : Nat} {tokens : Tokens} {script : List (Located Statement)}
    (h : ScriptForm tokens script) : parseTokens length tokens = .ok script := by
  have hread : Yields (if tokens.isEmpty then length else 0)
      (Parse.statements (tokens.length + 1) (tokens.length + 1)) tokens script [] :=
    Parse.statements_yields h (Nat.lt_succ_self _) (Nat.lt_succ_self _)
  obtain ⟨tried, hrun⟩ := hread []
  rw [List.append_nil] at hrun
  have hagrees := parseTokens_agrees length tokens
  rwa [startOf, hrun] at hagrees

theorem form_of_parseTokens {length : Nat} {tokens : Tokens} {script : List (Located Statement)}
    (h : parseTokens length tokens = .ok script) : ScriptForm tokens script := by
  have hagrees := parseTokens_agrees length tokens
  have hrest := Parse.statements_rest (tokens.length + 1) (tokens.length + 1)
    (startOf length tokens)
  have hlength : (startOf length tokens).rest.length ≤ tokens.length := Nat.le_refl _
  cases statements_outcome (startOf length tokens) with
  | wrong role word refused =>
    rw [refused _ hlength] at hagrees
    obtain ⟨kept, -, herror⟩ := hagrees
    rw [h] at herror
    cases herror
  | stuck pre rest tried split viable fits decided =>
    rw [decided.self split hlength] at hagrees
    obtain ⟨kept, -, herror⟩ := hagrees
    rw [h] at herror
    cases herror
  | done pre rest a tried split hform fits decided =>
    rw [decided.self split hlength] at hagrees hrest
    rw [h] at hagrees
    cases hagrees
    obtain rfl : rest = [] := hrest
    obtain rfl : tokens = pre := split.trans (List.append_nil pre)
    exact hform

theorem parseTokens_eq_ok_iff {length : Nat} {tokens : Tokens}
    {script : List (Located Statement)} :
    parseTokens length tokens = .ok script ↔ ScriptForm tokens script :=
  ⟨form_of_parseTokens, parseTokens_eq_ok⟩

theorem ScriptForm.unique {ts : Tokens} {script other : List (Located Statement)}
    (h : ScriptForm ts script) (hother : ScriptForm ts other) : other = script := by
  have hread : parseTokens 0 ts = .ok other := parseTokens_eq_ok hother
  rw [parseTokens_eq_ok h] at hread
  exact (Except.ok.inj hread).symm

theorem parse_eq_ok_iff {source : String} {script : List (Located Statement)} :
    parse source = .ok script ↔
      unreadableOf (lex source) = [] ∧ ScriptForm (tokensOf (lex source)) script := by
  cases hread : unreadableOf (lex source) with
  | nil => simp [parse, hread, mapError_eq_ok, parseTokens_eq_ok_iff]
  | cons e errors => simp [parse, hread]

/-- A source whose text can be read is parsed exactly if its tokens form a script, and as the one
script that they form. -/
theorem parse_exactly_grammar {source : String} (hread : unreadableOf (lex source) = []) :
    (∀ script, parse source = .ok script ↔ ScriptForm (tokensOf (lex source)) script) ∧
    ∀ script other, ScriptForm (tokensOf (lex source)) script →
      ScriptForm (tokensOf (lex source)) other → other = script := by
  refine ⟨fun script => ?_, fun script other => ScriptForm.unique⟩
  rw [parse_eq_ok_iff]
  exact ⟨fun h => h.2, fun h => ⟨hread, h⟩⟩

/-- Two names after a keyword, and a call in a list with a trailing comma. -/
def callInList : String := "repeat While Is not ([f(k: x, y),]) \x7b\"A\" = \"B\"\x7d end"

theorem parse_exactly_grammar_callInList :
    unreadableOf (lex callInList) = [] ∧ ∃ script, parse callInList = .ok script ∧
      script.map (·.span) = [⟨0, 47⟩, ⟨48, 51⟩] ∧
      ScriptForm (tokensOf (lex callInList)) script ∧
      ∀ other, ScriptForm (tokensOf (lex callInList)) other → other = script := by
  have hread : unreadableOf (lex callInList) = [] := by decide +kernel
  obtain ⟨script, hparse, hspans⟩ :
      ∃ script, parse callInList = .ok script ∧ script.map (·.span) = [⟨0, 47⟩, ⟨48, 51⟩] :=
    exists_ok_of_map (by decide +kernel)
  have hexact := parse_exactly_grammar hread
  have hform := (hexact.1 _).1 hparse
  exact ⟨hread, script, hparse, hspans, hform, fun other hother => hexact.2 _ _ hform hother⟩

end BlockTemplate.Script
