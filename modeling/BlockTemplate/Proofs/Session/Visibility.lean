import BlockTemplate.Proofs.Session.Frames
import BlockTemplate.Proofs.Session.Run

/-! Which declarations are in force, read off the calls alone: those made in the current branch or
in one around it. The frames of a session hold exactly these. -/
namespace BlockTemplate

/-- The values given in a call. -/
def SessionCall.values : SessionCall → List Value
  | .add a => a.params
  | .openScope h => h.values
  | .declare _ _ _ | .elseBranch | .close => []

/-- The branches after a call, innermost first, each named by the index of the call that began it.
The top level is not listed. -/
def branchesNext (branches : List Nat) (index : Nat) : SessionCall × Bool → List Nat
  | (.openScope _, true) => index :: branches
  | (.elseBranch, true) => index :: branches.tail
  | (.close, true) => branches.tail
  | _ => branches

def branchesAfter (branches : List Nat) (index : Nat) : List (SessionCall × Bool) → List Nat
  | [] => branches
  | x :: rest => branchesAfter (branchesNext branches index x) (index + 1) rest

/-- The branches around the call with the given index. -/
def branchesAt (past : List (SessionCall × Bool)) (index : Nat) : List Nat :=
  branchesAfter [] 0 (past.take index)

/-- A call declares the variable in the innermost of the given branches. -/
def DeclaredIn (past : List (SessionCall × Bool)) (branches : List Nat) (v : VarRef) : Prop :=
  ∃ (j : Nat) (kind : Option Kind), past[j]? = some (.declare v.name v.scope kind, true) ∧
    branchesAt past j = branches

/-- A call before `index` declares the variable, in a branch that is still the current one or
around it. -/
def Declared (past : List (SessionCall × Bool)) (index : Nat) (v : VarRef) : Prop :=
  ∃ (j : Nat) (kind : Option Kind), j < index ∧
    past[j]? = some (.declare v.name v.scope kind, true) ∧
    branchesAt past j <:+ branchesAt past index

/-- The variable is not declared, and all before it in the values are. -/
def FirstUndeclared (past : List (SessionCall × Bool)) (index : Nat) (values : List Value)
    (v : VarRef) : Prop :=
  ∃ before after, Value.varRefsOfList values = before ++ v :: after ∧
    (∀ u ∈ before, Declared past index u) ∧ ¬ Declared past index v

section Branches
variable {past : List (SessionCall × Bool)}

theorem branchesAfter_append (branches : List Nat) (index : Nat)
    (xs ys : List (SessionCall × Bool)) :
    branchesAfter branches index (xs ++ ys) =
      branchesAfter (branchesAfter branches index xs) (index + xs.length) ys := by
  induction xs generalizing branches index with
  | nil => rfl
  | cons x xs ih =>
    rw [List.cons_append, branchesAfter, ih, branchesAfter, List.length_cons]
    congr 1
    omega

/-- What comes later does not change where a call stands. -/
theorem branchesAt_append {j : Nat} (h : j ≤ past.length) (more : List (SessionCall × Bool)) :
    branchesAt (past ++ more) j = branchesAt past j := by
  rw [branchesAt, List.take_append_of_le_length h, branchesAt]

theorem branchesAt_snoc (x : SessionCall × Bool) :
    branchesAt (past ++ [x]) (past.length + 1) =
      branchesNext (branchesAt past past.length) past.length x := by
  have hall : (past ++ [x]).take (past.length + 1) = past ++ [x] :=
    List.take_of_length_le (by simp)
  rw [branchesAt, hall, branchesAfter_append, branchesAt, List.take_length]
  simp [branchesAfter]

/-- Branches are named by calls that were made before. -/
theorem branchesAfter_lt {branches : List Nat} {index : Nat} (h : ∀ b ∈ branches, b < index)
    (trace : List (SessionCall × Bool)) :
    ∀ b ∈ branchesAfter branches index trace, b < index + trace.length := by
  induction trace generalizing branches index with
  | nil => exact h
  | cons x rest ih =>
    have hnext : ∀ b ∈ branchesNext branches index x, b < index + 1 := by
      have htail : ∀ b ∈ branches.tail, b < index := fun b hb => h b (List.mem_of_mem_tail hb)
      unfold branchesNext
      split
      · exact List.forall_mem_cons.2 ⟨by omega, fun b hb => Nat.lt_succ_of_lt (h b hb)⟩
      · exact List.forall_mem_cons.2 ⟨by omega, fun b hb => Nat.lt_succ_of_lt (htail b hb)⟩
      · exact fun b hb => Nat.lt_succ_of_lt (htail b hb)
      · exact fun b hb => Nat.lt_succ_of_lt (h b hb)
    have hrest := ih hnext
    rw [List.length_cons]
    intro b hb
    have hlt := hrest b hb
    omega

theorem branchesAt_lt (trace : List (SessionCall × Bool)) (index : Nat) :
    ∀ b ∈ branchesAt trace index, b < index := by
  intro b hb
  have hlt := branchesAfter_lt (by simp) (trace.take index) b hb
  have hle : (trace.take index).length ≤ index := List.length_take_le _ _
  omega

/-- A branch that begins only now has no declarations. -/
theorem not_declaredIn_fresh (branches : List Nat) (v : VarRef) :
    ¬ DeclaredIn past (past.length :: branches) v := by
  rintro ⟨j, kind, hget, hbranches⟩
  have hj : j < past.length := (List.getElem?_eq_some_iff.1 hget).1
  have hlt := branchesAt_lt past j past.length (by simp [hbranches])
  omega

/-- One more call adds at most its own declaration, in the branches it stands in. -/
theorem declaredIn_snoc (x : SessionCall × Bool) (branches : List Nat) (v : VarRef) :
    DeclaredIn (past ++ [x]) branches v ↔ DeclaredIn past branches v ∨
      (branches = branchesAt past past.length ∧
        ∃ kind, x = (.declare v.name v.scope kind, true)) := by
  constructor
  · rintro ⟨j, kind, hget, hbranches⟩
    have hj : j < (past ++ [x]).length := (List.getElem?_eq_some_iff.1 hget).1
    rw [List.length_append, List.length_singleton] at hj
    rw [branchesAt_append (by omega)] at hbranches
    by_cases hlast : j = past.length
    · subst hlast
      rw [List.getElem?_concat_length] at hget
      exact .inr ⟨hbranches.symm, kind, Option.some.inj hget⟩
    · rw [List.getElem?_append_left (by omega)] at hget
      exact .inl ⟨j, kind, hget, hbranches⟩
  · rintro (⟨j, kind, hget, hbranches⟩ | ⟨hbranches, kind, rfl⟩)
    · have hj : j < past.length := (List.getElem?_eq_some_iff.1 hget).1
      refine ⟨j, kind, ?_, ?_⟩
      · rwa [List.getElem?_append_left hj]
      · rwa [branchesAt_append (by omega)]
    · refine ⟨past.length, kind, List.getElem?_concat_length, ?_⟩
      rw [branchesAt_append (Nat.le_refl _), hbranches]

/-- In the end, to be declared is to be declared in the current branch or in one around it. -/
theorem declared_iff (v : VarRef) : Declared past past.length v ↔
    ∃ branches, branches <:+ branchesAt past past.length ∧ DeclaredIn past branches v := by
  constructor
  · rintro ⟨j, kind, _, hget, hsuffix⟩
    exact ⟨_, hsuffix, j, kind, hget, rfl⟩
  · rintro ⟨branches, hsuffix, j, kind, hget, rfl⟩
    exact ⟨j, kind, (List.getElem?_eq_some_iff.1 hget).1, hget, hsuffix⟩

theorem Declared.append {index : Nat} {v : VarRef} (h : Declared past index v)
    (hle : index ≤ past.length) (more : List (SessionCall × Bool)) :
    Declared (past ++ more) index v := by
  obtain ⟨j, kind, hlt, hget, hsuffix⟩ := h
  refine ⟨j, kind, hlt, ?_, ?_⟩
  · rwa [List.getElem?_append_left (by omega)]
  · rwa [branchesAt_append (by omega), branchesAt_append hle]

end Branches

/-- The frame holds the declarations made in the given branches. -/
def FrameFits (past : List (SessionCall × Bool)) (frame : Frame) (branches : List Nat) : Prop :=
  ∀ v, frame.declares v = true ↔ DeclaredIn past branches v

/-- The frames in force fit the branches, innermost first, down to the top level. -/
def FramesFit (past : List (SessionCall × Bool)) : List Nat → List Frame → Prop
  | [], live => ∃ frame, live = [frame] ∧ FrameFits past frame []
  | b :: branches, live => ∃ frame outer, live = frame :: outer ∧
      FrameFits past frame (b :: branches) ∧ FramesFit past branches outer

namespace FramesFit
variable {past : List (SessionCall × Bool)} {branches : List Nat} {live : List Frame}

theorem any_declares (h : FramesFit past branches live) (v : VarRef) :
    live.any (·.declares v) = true ↔
      ∃ inner, inner <:+ branches ∧ DeclaredIn past inner v := by
  induction branches generalizing live with
  | nil =>
    obtain ⟨frame, rfl, hframe⟩ := h
    simp [List.suffix_nil, hframe v]
  | cons b branches ih =>
    obtain ⟨frame, outer, rfl, hframe, houter⟩ := h
    simp only [List.any_cons, Bool.or_eq_true, hframe v, ih houter, List.suffix_cons_iff,
      or_and_right, exists_or, exists_eq_left]

/-- A call that declares nothing in these branches or around them keeps the frames. -/
theorem snoc (h : FramesFit past branches live) {x : SessionCall × Bool}
    (hx : ∀ inner, inner <:+ branches → inner = branchesAt past past.length →
      ∀ (v : VarRef) (kind : Option Kind), x ≠ (.declare v.name v.scope kind, true)) :
    FramesFit (past ++ [x]) branches live := by
  have hsame : ∀ {frame : Frame} {inner : List Nat}, inner <:+ branches →
      FrameFits past frame inner → FrameFits (past ++ [x]) frame inner := by
    intro frame inner hinner hframe v
    rw [hframe v, declaredIn_snoc]
    refine ⟨.inl, fun hdeclared => hdeclared.elim id ?_⟩
    rintro ⟨hbranches, kind, hdeclare⟩
    exact absurd hdeclare (hx inner hinner hbranches v kind)
  induction branches generalizing live with
  | nil =>
    obtain ⟨frame, rfl, hframe⟩ := h
    exact ⟨frame, rfl, hsame (List.suffix_refl _) hframe⟩
  | cons b branches ih =>
    obtain ⟨frame, outer, rfl, hframe, houter⟩ := h
    have hwiden : ∀ {inner : List Nat}, inner <:+ branches → inner <:+ b :: branches :=
      fun hinner => hinner.trans (List.suffix_cons b branches)
    exact ⟨frame, outer, rfl, hsame (List.suffix_refl _) hframe,
      ih houter (fun inner hinner => hx inner (hwiden hinner)) fun hinner => hsame (hwiden hinner)⟩

theorem snoc_plain (h : FramesFit past branches live) {x : SessionCall × Bool}
    (hx : ∀ name scope kind, x ≠ (.declare name scope kind, true)) :
    FramesFit (past ++ [x]) branches live :=
  h.snoc fun _ _ _ v kind => hx v.name v.scope kind

/-- A branch that begins with the last call has a frame of its own, and nothing in it. -/
theorem enter (h : FramesFit past branches live) {x : SessionCall × Bool}
    (hx : ∀ name scope kind, x ≠ (.declare name scope kind, true)) :
    FramesFit (past ++ [x]) (past.length :: branches) ({} :: live) := by
  refine ⟨{}, live, rfl, fun v => ?_, h.snoc_plain hx⟩
  have hnone : ¬ DeclaredIn (past ++ [x]) (past.length :: branches) v := by
    rw [declaredIn_snoc]
    rintro (hdeclared | ⟨_, kind, hdeclare⟩)
    · exact not_declaredIn_fresh branches v hdeclared
    · exact hx _ _ _ hdeclare
  simp [Frame.declares_iff, hnone]

theorem frameFits_declare {frame : Frame}
    (h : FrameFits past frame (branchesAt past past.length)) (name : String)
    (scope : VariableClass) (kind : Option Kind) (depth : Nat) :
    FrameFits (past ++ [(.declare name scope kind, true)])
      (frame.insert ⟨name, scope, kind, depth⟩) (branchesAt past past.length) := by
  intro v
  rw [declaredIn_snoc, ← h v, Frame.declares_insert]
  obtain ⟨vname, vscope⟩ := v
  simp [Declaration.ref]

/-- A declaration goes into the innermost frame; the branches around are shorter, so that none of
them is the one it stands in. -/
theorem declare {current : Frame} {outer : List Frame}
    (h : FramesFit past (branchesAt past past.length) (current :: outer)) (name : String)
    (scope : VariableClass) (kind : Option Kind) (depth : Nat) :
    FramesFit (past ++ [(.declare name scope kind, true)]) (branchesAt past past.length)
      (current.insert ⟨name, scope, kind, depth⟩ :: outer) := by
  have hframe : FrameFits past current (branchesAt past past.length) →
      FrameFits (past ++ [(.declare name scope kind, true)])
        (current.insert ⟨name, scope, kind, depth⟩) (branchesAt past past.length) :=
    fun hcurrent => frameFits_declare hcurrent name scope kind depth
  cases hbranches : branchesAt past past.length with
  | nil =>
    rw [hbranches] at h hframe
    obtain ⟨frame, heq, hcurrent⟩ := h
    obtain ⟨rfl, rfl⟩ := List.cons.inj heq
    exact ⟨_, rfl, hframe hcurrent⟩
  | cons b branches =>
    rw [hbranches] at h hframe
    obtain ⟨frame, rest, heq, hcurrent, houter⟩ := h
    obtain ⟨rfl, rfl⟩ := List.cons.inj heq
    refine ⟨_, _, rfl, hframe hcurrent, houter.snoc ?_⟩
    intro inner hinner hsame
    have hlength := hinner.length_le
    rw [hsame, hbranches, List.length_cons] at hlength
    omega

end FramesFit

namespace Session

/-- The session is what these calls have made of an empty one, as far as variables go. -/
structure Tracks (past : List (SessionCall × Bool)) (s : Session) : Prop where
  next : s.next = past.length
  depth : s.opened.length = (branchesAt past past.length).length
  frames : FramesFit past (branchesAt past past.length) s.declarations.live

theorem Tracks.empty : Session.empty.Tracks [] := by
  refine ⟨rfl, rfl, {}, rfl, fun v => ?_⟩
  simp [Frame.declares_iff, DeclaredIn]

theorem Tracks.isVisible_iff {past : List (SessionCall × Bool)} {s : Session} (h : s.Tracks past)
    (v : VarRef) : s.declarations.isVisible v = true ↔ Declared past past.length v := by
  rw [Declarations.isVisible, h.frames.any_declares, declared_iff]

@[simp] theorem push_depth (s : Session) (n : Node) :
    (s.push n).opened.length = s.opened.length := by
  cases hs : s.opened <;> simp [Session.push, hs]

@[simp] theorem push_declarations (s : Session) (n : Node) :
    (s.push n).declarations = s.declarations := by
  cases hs : s.opened <;> simp [Session.push, hs]

/-- A call that changes neither scopes nor frames. -/
theorem Tracks.keep {past : List (SessionCall × Bool)} {s t : Session} (h : s.Tracks past)
    {x : SessionCall × Bool} (hx : ∀ name scope kind, x ≠ (.declare name scope kind, true))
    (hbranches : branchesNext (branchesAt past past.length) past.length x =
      branchesAt past past.length)
    (hnext : t.next = s.next + 1) (hdepth : t.opened.length = s.opened.length)
    (hdeclarations : t.declarations = s.declarations) : t.Tracks (past ++ [x]) := by
  refine ⟨?_, ?_, ?_⟩
  · rw [hnext, h.next, List.length_append, List.length_singleton]
  · rw [List.length_append, List.length_singleton, branchesAt_snoc, hbranches, hdepth, h.depth]
  · rw [List.length_append, List.length_singleton, branchesAt_snoc, hbranches, hdeclarations]
    exact h.frames.snoc_plain hx

theorem Tracks.refused {past : List (SessionCall × Bool)} {s : Session} (h : s.Tracks past)
    (c : SessionCall) : s.skip.Tracks (past ++ [(c, false)]) :=
  h.keep (by simp) (by cases c <;> rfl) rfl rfl rfl

/-- Inside a scope there is a branch to leave, and leaving it gives back the frames around it. -/
theorem Tracks.leave {past : List (SessionCall × Bool)} {s : Session} (h : s.Tracks past)
    {top : OpenScope} {rest : List OpenScope} (hopened : s.opened = top :: rest) :
    ∃ b branches, branchesAt past past.length = b :: branches ∧
      rest.length = branches.length ∧ FramesFit past branches s.declarations.exit.live := by
  have hdepth := h.depth
  have hframes := h.frames
  cases hbranches : branchesAt past past.length with
  | nil => simp [hopened, hbranches] at hdepth
  | cons b branches =>
    rw [hopened, hbranches, List.length_cons, List.length_cons] at hdepth
    rw [hbranches] at hframes
    obtain ⟨frame, outer, hlive, _, houter⟩ := hframes
    obtain ⟨_, houterEq⟩ := List.cons.inj hlive
    refine ⟨b, branches, rfl, by omega, ?_⟩
    have hlive : s.declarations.exit.live = outer := by
      cases outer with
      | nil => cases branches <;> simp [FramesFit] at houter
      | cons frame outer => simp [Declarations.exit, houterEq, Declarations.live]
    rwa [hlive]

/-- One call: scopes and branches open and close together, and each branch has its frame. -/
theorem Tracks.after {past : List (SessionCall × Bool)} {s : Session} (h : s.Tracks past)
    (c : SessionCall) : (s.after c).Tracks (past ++ [(c, s.accepts c)]) := by
  have hlength : (past ++ [(c, s.accepts c)]).length = past.length + 1 := by simp
  cases c with
  | declare name scope kind =>
    refine ⟨?_, ?_, ?_⟩
    · rw [after_next, h.next, hlength]
    · rw [hlength, branchesAt_snoc]
      exact h.depth
    · rw [hlength, branchesAt_snoc]
      exact h.frames.declare name scope kind _
  | add a =>
    obtain ⟨hok, hs⟩ | ⟨hok, hs⟩ := s.add_cases a <;> rw [hok, hs]
    · exact h.keep (by simp) rfl (by simp) (by simp [Session.skip]) (by simp [Session.skip])
    · exact h.refused _
  | openScope header =>
    obtain ⟨hok, hs⟩ | ⟨hok, hs⟩ := s.openScope_cases header <;> rw [hok, hs]
    · rw [hok] at hlength
      refine ⟨?_, ?_, ?_⟩ <;> rw [hlength]
      · exact congrArg (· + 1) h.next
      · rw [branchesAt_snoc]
        exact congrArg (· + 1) h.depth
      · rw [branchesAt_snoc]
        exact h.frames.enter (by simp)
    · exact h.refused _
  | elseBranch =>
    obtain ⟨top, rest, hopened, _, _, hok, hs⟩ | ⟨hok, hs⟩ := s.elseBranch_cases <;> rw [hok, hs]
    · obtain ⟨b, branches, hbranches, hdepth, hframes⟩ := h.leave hopened
      rw [hok] at hlength
      have hafter : branchesAt (past ++ [(.elseBranch, true)]) (past.length + 1) =
          past.length :: branches := by
        rw [branchesAt_snoc, hbranches]
        rfl
      refine ⟨?_, ?_, ?_⟩ <;> rw [hlength]
      · exact congrArg (· + 1) h.next
      · rw [hafter]
        exact congrArg (· + 1) hdepth
      · rw [hafter]
        exact hframes.enter (by simp)
    · exact h.refused _
  | close =>
    obtain ⟨top, rest, hopened, hok, hs⟩ | ⟨_, hok, hs⟩ := s.close_cases <;> rw [hok, hs]
    · obtain ⟨b, branches, hbranches, hdepth, hframes⟩ := h.leave hopened
      rw [hok] at hlength
      have hafter : branchesAt (past ++ [(.close, true)]) (past.length + 1) = branches := by
        rw [branchesAt_snoc, hbranches]
        rfl
      refine ⟨?_, ?_, ?_⟩ <;> rw [hlength]
      · rw [push_next]
        exact congrArg (· + 1) h.next
      · rw [push_depth, hafter]
        exact hdepth
      · rw [push_declarations, hafter]
        exact hframes.snoc_plain (by simp)
    · exact h.refused _

theorem Tracks.run {past : List (SessionCall × Bool)} {s : Session} (h : s.Tracks past)
    (calls : List SessionCall) : (s.run calls).Tracks (past ++ s.trace calls) := by
  induction calls generalizing past s with
  | nil => simpa [Session.run, Session.trace] using h
  | cons c rest ih =>
    have hrest := ih (h.after c)
    rwa [List.append_assoc] at hrest

theorem length_trace (s : Session) (calls : List SessionCall) :
    (s.trace calls).length = calls.length := by
  induction calls generalizing s with
  | nil => rfl
  | cons c rest ih => simp [Session.trace, ih]

/-- After any calls a variable is visible exactly if it is declared there. -/
theorem run_isVisible_iff (calls : List SessionCall) (v : VarRef) :
    (Session.empty.run calls).declarations.isVisible v = true ↔
      Declared (Session.empty.trace calls) calls.length v := by
  have htracks := Tracks.empty.run calls
  rw [List.nil_append] at htracks
  rw [htracks.isVisible_iff, length_trace]

theorem run_unknown?_iff (calls : List SessionCall) (values : List Value) (v : VarRef) :
    (Session.empty.run calls).unknown? values = some v ↔
      FirstUndeclared (Session.empty.trace calls) calls.length values v := by
  rw [unknown?, List.find?_eq_some_iff_append]
  simp only [Bool.not_eq_eq_eq_not, Bool.not_true, Bool.not_not, ← Bool.not_eq_true,
    run_isVisible_iff, FirstUndeclared]
  constructor
  · rintro ⟨hv, before, after, heq, hbefore⟩
    exact ⟨before, after, heq, hbefore, hv⟩
  · rintro ⟨before, after, heq, hbefore, hv⟩
    exact ⟨hv, before, after, heq, hbefore⟩

theorem run_unknown?_none (calls : List SessionCall) (values : List Value) :
    (Session.empty.run calls).unknown? values = none ↔
      ∀ v ∈ Value.varRefsOfList values, Declared (Session.empty.trace calls) calls.length v := by
  simp only [unknown?, List.find?_eq_none, Bool.not_eq_true', Bool.not_eq_false,
    run_isVisible_iff]

theorem exists_unknown?_iff (calls : List SessionCall) (values : List Value) :
    (∃ v, (Session.empty.run calls).unknown? values = some v) ↔
      ∃ v ∈ Value.varRefsOfList values,
        ¬ Declared (Session.empty.trace calls) calls.length v := by
  simp only [unknown?, ← Option.isSome_iff_exists, List.find?_isSome, Bool.not_eq_true',
    ← Bool.not_eq_true, run_isVisible_iff]

@[simp] theorem unknown?_nil (s : Session) : s.unknown? [] = none := rfl

theorem accepts_unknown? {s : Session} {c : SessionCall} (h : s.accepts c = true) :
    s.unknown? c.values = none := by
  cases c with
  | add a =>
    cases hv : s.unknown? a.params with
    | none => exact hv
    | some v => simp [accepts, perform, add, hv, Except.isOk, Except.toBool] at h
  | openScope header =>
    cases hv : s.unknown? header.values with
    | none => exact hv
    | some v => simp [accepts, perform, openScope, hv, Except.isOk, Except.toBool] at h
  | declare _ _ _ | elseBranch | close => rfl

/-- A call does nothing to the declarations but declare, enter and leave. -/
theorem after_indexed {s : Session} (h : s.declarations.Indexed) (c : SessionCall) :
    (s.after c).declarations.Indexed := by
  cases c with
  | declare name scope kind => exact h.declare name scope kind
  | add a =>
    obtain ⟨_, hs⟩ | ⟨_, hs⟩ := s.add_cases a <;> rw [hs]
    · rw [push_declarations]
      exact h
    · exact h
  | openScope header =>
    obtain ⟨_, hs⟩ | ⟨_, hs⟩ := s.openScope_cases header <;> rw [hs]
    · exact h.enter
    · exact h
  | elseBranch =>
    obtain ⟨_, _, _, _, _, _, hs⟩ | ⟨_, hs⟩ := s.elseBranch_cases <;> rw [hs]
    · exact h.exit.enter
    · exact h
  | close =>
    obtain ⟨_, _, _, _, hs⟩ | ⟨_, _, hs⟩ := s.close_cases <;> rw [hs]
    · rw [push_declarations]
      exact h.exit
    · exact h

theorem run_indexed {s : Session} (h : s.declarations.Indexed) (calls : List SessionCall) :
    (s.run calls).declarations.Indexed := by
  induction calls generalizing s with
  | nil => exact h
  | cons c rest ih => exact ih (after_indexed h c)

/-- A call names an unknown variable exactly if it has one, and then the first. -/
theorem perform_unknown_iff (s : Session) (c : SessionCall) (index : Nat) (name : String) :
    (s.perform c).1 = .error (.unknownVariable index name) ↔
      index = s.next ∧ ∃ v, s.unknown? c.values = some v ∧ v.name = name := by
  cases c with
  | declare _ _ _ => simp [perform, SessionCall.values]
  | add a =>
    cases hv : s.unknown? a.params with
    | none => simp [perform, add, SessionCall.values, hv]
    | some v => simp [perform, add, SessionCall.values, hv, eq_comm]
  | openScope header =>
    cases hv : s.unknown? header.values with
    | none => simp [perform, openScope, SessionCall.values, hv]
    | some v => simp [perform, openScope, SessionCall.values, hv, eq_comm]
  | elseBranch =>
    simp only [perform, elseBranch, SessionCall.values, unknown?_nil]
    split
    · simp
    · split
      · simp
      · split <;> simp
  | close =>
    simp only [perform, close, SessionCall.values, unknown?_nil]
    split <;> simp

/-- A call of a run, seen from the state in which it was made. -/
theorem trace_split {s : Session} {calls : List SessionCall} {i : Nat} {c : SessionCall} {ok : Bool}
    (h : (s.trace calls)[i]? = some (c, ok)) :
    ∃ past more, past.length = i ∧ (s.run past).accepts c = ok ∧
      s.trace calls = s.trace past ++ more := by
  induction calls generalizing s i with
  | nil => simp [trace] at h
  | cons first rest ih =>
    cases i with
    | zero =>
      obtain ⟨rfl, rfl⟩ := Prod.mk.inj (Option.some.inj h)
      exact ⟨[], _, rfl, rfl, rfl⟩
    | succ i =>
      obtain ⟨past, more, hlength, hok, htrace⟩ := ih h
      refine ⟨first :: past, more, congrArg (· + 1) hlength, hok, ?_⟩
      rw [trace, htrace]
      rfl

/-- In an accepted call every variable is declared. -/
theorem declared_of_accepted {calls : List SessionCall} {i : Nat} {c : SessionCall}
    (h : (Session.empty.trace calls)[i]? = some (c, true)) :
    ∀ v ∈ Value.varRefsOfList c.values, Declared (Session.empty.trace calls) i v := by
  obtain ⟨past, more, rfl, hok, htrace⟩ := trace_split h
  intro v hv
  rw [htrace]
  have hpast := (run_unknown?_none past c.values).1 (accepts_unknown? hok) v hv
  exact hpast.append (Nat.le_of_eq (length_trace _ _).symm) more

end Session

end BlockTemplate
