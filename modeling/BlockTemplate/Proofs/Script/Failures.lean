import BlockTemplate.Compile
import BlockTemplate.Proofs.Script.Parsing
import BlockTemplate.Report

/-! The places of failures. They can all be shown, but for one case: where a script ends too early,
the place runs backwards if anything follows the last token. -/
namespace BlockTemplate
open Script

/-- The stage that a script fails at. -/
theorem Compiler.compileScript_cases {c : Compiler} {name source : String} {f : Failure}
    (h : c.compileScript name source = .error f) :
    (∃ errors, parse source = .error errors ∧ f = .script errors) ∨
    ∃ script, parse source = .ok script ∧ (replay .empty script = .error f ∨
      ∃ session e, replay .empty script = .ok session ∧ c.compile name session = .error e ∧
        f = .compile e (blame script e)) := by
  obtain h | ⟨script, hscript, h⟩ := bind_eq_error.1 h
  · exact .inl (mapError_eq_error.1 h)
  · refine .inr ⟨script, mapError_eq_ok.1 hscript, ?_⟩
    obtain h | ⟨session, hsession, h⟩ := bind_eq_error.1 h
    · exact .inl h
    · obtain ⟨e, he, hf⟩ := mapError_eq_error.1 h
      exact .inr ⟨session, e, hsession, he, hf⟩

namespace Script

namespace ScriptError

/-- Something was missing where the source ends. -/
def endsEarly : ScriptError → Bool
  | .unread (.unexpected none _) _ => true
  | _ => false

theorem PlacedIn.cut {source : String} {e : ScriptError} (h : e.PlacedIn source) :
    Cut source e.span.start ∧ Cut source e.span.stop := by
  unfold PlacedIn at h
  split at h
  · subst h
    exact ⟨cut_length source, cut_tokensEnd source⟩
  · exact ⟨h.start, h.stop⟩

theorem PlacedIn.reversed_iff {source : String} {e : ScriptError} (h : e.PlacedIn source) :
    e.span.stop < e.span.start ↔
      e.endsEarly = true ∧ tokensEnd source < source.utf8ByteSize := by
  unfold PlacedIn at h
  split at h
  · subst h
    simp [endsEarly, ScriptError.span]
  · next hother =>
    have hordered := h.ordered
    have hfalse : e.endsEarly = false := by
      unfold endsEarly
      split
      · exact absurd rfl (hother _ _)
      · rfl
    simp only [hfalse, Bool.false_eq_true, false_and, iff_false]
    omega

end ScriptError

namespace Failure

def spans : Failure → List Span
  | .script errors => errors.map (·.span)
  | .compile _ span => span.toList

def endsEarly : Failure → Bool
  | .script errors => errors.any (·.endsEarly)
  | .compile _ _ => false

def PlacedIn (source : String) : Failure → Prop
  | .script errors => ∀ e ∈ errors, e.PlacedIn source
  | .compile _ span => ∀ s ∈ span, s.Sound (Cut source)

theorem PlacedIn.cut {source : String} {f : Failure} (h : f.PlacedIn source) :
    ∀ span ∈ f.spans, Cut source span.start ∧ Cut source span.stop := by
  cases f with
  | script errors =>
    intro span hspan
    obtain ⟨e, he, rfl⟩ := List.mem_map.1 hspan
    exact (h e he).cut
  | compile e span =>
    intro s hs
    have hsound := h s (Option.mem_toList.1 hs)
    exact ⟨hsound.start, hsound.stop⟩

theorem PlacedIn.reversed_iff {source : String} {f : Failure} (h : f.PlacedIn source) :
    (∃ span ∈ f.spans, span.stop < span.start) ↔
      f.endsEarly = true ∧ tokensEnd source < source.utf8ByteSize := by
  cases f with
  | script errors =>
    constructor
    · rintro ⟨span, hspan, hlt⟩
      obtain ⟨e, he, rfl⟩ := List.mem_map.1 hspan
      obtain ⟨hearly, hend⟩ := (h e he).reversed_iff.1 hlt
      exact ⟨List.any_eq_true.2 ⟨e, he, hearly⟩, hend⟩
    · rintro ⟨hearly, hend⟩
      obtain ⟨e, he, hearly⟩ := List.any_eq_true.1 hearly
      exact ⟨e.span, List.mem_map.2 ⟨e, he, rfl⟩, (h e he).reversed_iff.2 ⟨hearly, hend⟩⟩
  | compile e span =>
    constructor
    · rintro ⟨s, hs, hlt⟩
      have hordered := (h s (Option.mem_toList.1 hs)).ordered
      omega
    · rintro ⟨hearly, _⟩
      cases hearly

end Failure

/-- Evaluation blames places inside a statement. -/
theorem Blamed.placedIn {source : String} {next : Nat} {st : Located Statement} {f : Failure}
    (h : Blamed next st f) (hst : Placed (Cut source) st) : f.PlacedIn source := by
  cases h with
  | meaningless fault h => exact List.forall_mem_singleton.2 (hst.inside _ h).sound
  | unknown name h =>
    have hplace : _ ∈ st.item.places := List.mem_append_left _ (varCallsOf_subset _ h)
    exact fun s hs => Option.mem_some.1 hs ▸ (hst.inside _ hplace).sound
  | unbalanced fault => exact fun s hs => Option.mem_some.1 hs ▸ hst.sound

end Script

theorem Compiler.compileScript_placedIn {c : Compiler} {name source : String} {f : Failure}
    (h : c.compileScript name source = .error f) : f.PlacedIn source := by
  have hparse := parse_meets source
  obtain ⟨errors, herrors, rfl⟩ | ⟨script, hscript, h⟩ := compileScript_cases h
  · exact hparse.of_error herrors
  · have hplaced := hparse.of_ok hscript
    obtain hreplay | ⟨session, e, _, _, rfl⟩ := h
    · obtain ⟨i, st, s', hget, _, _, hblamed⟩ := (replay_meets _ script).of_error hreplay
      exact hblamed.placedIn (hplaced st (List.mem_of_getElem? hget))
    · intro s hs
      simp only [blame, Option.mem_def, Option.bind_eq_bind, Option.bind_eq_some_iff] at hs
      obtain ⟨i, _, st, hget, hs⟩ := hs
      cases hs
      exact (hplaced st (List.mem_of_getElem? hget)).sound

namespace Report

theorem notice?_eq_none_iff (source : List Char) (message : String) (span : Span) :
    notice? source message span = none ↔ span.stop < span.start := by
  simp [notice?]

theorem mapM_eq_none_iff {α β : Type} {g : α → Option β} (xs : List α) :
    xs.mapM g = none ↔ ∃ x ∈ xs, g x = none := by
  induction xs with
  | nil => simp
  | cons x xs ih =>
    cases hx : g x with
    | none => simp [List.mapM_cons, hx]
    | some y => cases hxs : xs.mapM g <;> simp_all [List.mapM_cons]

/-- Exactly the places that run backwards cannot be shown. -/
theorem notices?_eq_none_iff (source : String) (f : Failure) :
    notices? source f = none ↔ ∃ span ∈ f.spans, span.stop < span.start := by
  cases f with
  | script errors =>
    rw [notices?, mapM_eq_none_iff]
    simp only [notice?_eq_none_iff, Failure.spans]
    constructor
    · rintro ⟨e, he, hlt⟩
      exact ⟨e.span, List.mem_map.2 ⟨e, he, rfl⟩, hlt⟩
    · rintro ⟨span, hspan, hlt⟩
      obtain ⟨e, he, rfl⟩ := List.mem_map.1 hspan
      exact ⟨e, he, hlt⟩
  | compile e span =>
    cases span with
    | none => simp [notices?, Failure.spans]
    | some span => simp [notices?, Failure.spans, notice?_eq_none_iff]

end Report

theorem Compiler.compileScript_of_unread {c : Compiler} {name source : String}
    {errors : List ScriptError} (h : parse source = .error errors) :
    c.compileScript name source = .error (.script errors) := by
  rw [compileScript, h]
  rfl

/-- Every place of a failure is on whole characters of the source. It runs backwards, so that the
failure cannot be shown, exactly if the script ends too early and blanks or a comment follow its
last token. -/
theorem Compiler.compileScript_spans {c : Compiler} {name source : String} {f : Failure}
    (h : c.compileScript name source = .error f) :
    (∀ span ∈ f.spans, Cut source span.start ∧ Cut source span.stop) ∧
    ((∃ span ∈ f.spans, span.stop < span.start) ↔
      f.endsEarly = true ∧ tokensEnd source < source.utf8ByteSize) ∧
    (Report.notices? source f = none ↔
      f.endsEarly = true ∧ tokensEnd source < source.utf8ByteSize) := by
  have hplaced := compileScript_placedIn h
  exact ⟨hplaced.cut, hplaced.reversed_iff,
    (Report.notices?_eq_none_iff source f).trans hplaced.reversed_iff⟩

theorem Compiler.compileScript_spans_comment : ∃ f : Failure,
    compileScript {} "" "action player // é" = .error f ∧ f.spans = [⟨19, 13⟩] ∧
    f.endsEarly = true ∧ tokensEnd "action player // é" < "action player // é".utf8ByteSize := by
  have hparse : parse "action player // é" =
      .error [.unread (.unexpected none []) ⟨19, 13⟩] := by decide +kernel
  have herror : compileScript {} "" "action player // é" = _ := compileScript_of_unread hparse
  have hreversed := (compileScript_spans herror).2.1.1 ⟨⟨19, 13⟩, by simp [Failure.spans,
    ScriptError.span], by decide⟩
  exact ⟨_, herror, rfl, hreversed⟩

/-- A blank after the only token is enough. -/
theorem Compiler.compileScript_event_backwards : ∃ f span,
    compileScript {} "" "event " = .error f ∧ span ∈ f.spans ∧ span.stop < span.start ∧
    Report.notices? "event " f = none := by
  have hparse : parse "event " = .error [.unread (.unexpected none []) ⟨6, 5⟩] := by decide +kernel
  exact ⟨_, ⟨6, 5⟩, compileScript_of_unread hparse, by decide, by decide, by decide⟩

end BlockTemplate
