import BlockTemplate.Compile
import BlockTemplate.Proofs.Json.Layout
import BlockTemplate.Proofs.Record.RoundTrip

/-! The two texts of a template: they differ in layout only and denote the same document. -/
namespace BlockTemplate
open Json

theorem Document.parse?_render_of_nesting {style : Style} (hstyle : style.Blank) {d : Document}
    (hreals : d.Finite) (hsized : d.Sized) (hnesting : d.toData.nesting ≤ readingDepth) :
    Document.parse? (d.render style) = some d := by
  have hnone : ∀ c ∈ ([] : List Char), isBlank c = true := List.forall_mem_nil _
  have hread := d.parse?_render hstyle hreals hsized hnone
  rwa [String.ofList_nil, String.append_empty, if_pos hnesting] at hread

/-- The pretty text of a template without the blanks outside its quoted texts is the compact one,
which has none, and either is read as the template's document. Its doubles are finite, its counts
fit their words, and it nests no deeper than a text may. -/
theorem Template.render_pretty_compact (t : Template) (hreals : t.document.Finite)
    (hsized : t.document.Sized) (hnesting : t.document.toData.nesting ≤ 127) :
    stripLayout (t.document.render pretty) = t.document.render compact ∧
    stripLayout (t.document.render compact) = t.document.render compact ∧
    Document.parse? (t.document.render pretty) = some t.document ∧
    Document.parse? (t.document.render compact) = some t.document :=
  ⟨stripLayout_render pretty_blank t.document.toData,
    stripLayout_render compact_blank t.document.toData,
    Document.parse?_render_of_nesting pretty_blank hreals hsized hnesting,
    Document.parse?_render_of_nesting compact_blank hreals hsized hnesting⟩

/-- A template whose texts hold blanks, quotes, brackets and a line feed, with an empty list. -/
def Template.spaced : Template where
  heading := { name := "spaced", author := "nobody" }
  document := ⟨[.block { block := "player_action", action := some "Send Message", items :=
    [⟨.text "a \" :  \\\n[ , ]", 0⟩, ⟨.list [.sound "harp" 0.5 (-0.0), .list []], 1⟩] }]⟩

theorem Template.render_pretty_compact_spaced :
    Template.spaced.document.Finite ∧ Template.spaced.document.Sized ∧
    Template.spaced.document.toData.nesting = 12 ∧
    stripLayout (Template.spaced.document.render pretty) =
      Template.spaced.document.render compact ∧
    Document.parse? (Template.spaced.document.render pretty) = some Template.spaced.document := by
  have hreals : Template.spaced.document.Finite := by
    have hlist : Template.spaced.document.reals = [0.5, -0.0] := rfl
    rw [Document.Finite, hlist]
    decide +kernel
  have hsized : Template.spaced.document.Sized :=
    List.forall_mem_cons.2 ⟨⟨by decide, trivial⟩, List.forall_mem_singleton.2
      ⟨by decide, trivial, trivial, trivial⟩⟩
  have hnesting : Template.spaced.document.toData.nesting = 12 := rfl
  obtain ⟨hstrip, _, hread, _⟩ :=
    Template.spaced.render_pretty_compact hreals hsized (by rw [hnesting]; decide)
  exact ⟨hreals, hsized, hnesting, hstrip, hread⟩

end BlockTemplate
