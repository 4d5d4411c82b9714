import BlockTemplate.Proofs.Session.DeclarationLog

/-! The list of all declarations. None is lost or listed twice when frames are left, and the sort
by depth keeps the frame in force before those that were left, each in its own order. -/
namespace BlockTemplate

/-- The declarations that operations make, from a depth on, each with the depth it is made at. -/
def declarationsMade : Nat → List DeclarationOp → List Declaration
  | _, [] => []
  | depth, .declare name scope kind :: rest =>
    ⟨name, scope, kind, depth⟩ :: declarationsMade depth rest
  | depth, .enter :: rest => declarationsMade (depth + 1) rest
  | depth, .exit :: rest => declarationsMade (depth - 1) rest

/-- A frame by its number, and how many frames are around it. -/
structure PlacedFrame where
  frame : Nat
  depth : Nat

namespace DeclarationLog

/-- The frame that an operation leaves. -/
def leaves (log : DeclarationLog) : DeclarationOp → List PlacedFrame
  | .exit => if log.outer = [] then [] else [⟨log.current, log.outer.length⟩]
  | _ => []

/-- The frames that operations leave, in the order of leaving. -/
def leavesAll (log : DeclarationLog) : List DeclarationOp → List PlacedFrame
  | [] => []
  | op :: rest => log.leaves op ++ (log.next op).leavesAll rest

/-- The frame in force at a depth. -/
def frameAt? (log : DeclarationLog) (depth : Nat) : Option Nat := log.frames.reverse[depth]?

theorem extend_entries (log : DeclarationLog) (ops : List DeclarationOp) :
    (log.extend ops).entries.map (·.declaration) =
      log.entries.map (·.declaration) ++ declarationsMade log.outer.length ops := by
  induction ops generalizing log with
  | nil => simp [extend, declarationsMade]
  | cons op rest ih =>
    rw [extend, ih]
    cases op with
    | declare name scope kind => simp [next, declarationsMade]
    | enter => simp [next, declarationsMade]
    | exit =>
      rw [next, declarationsMade]
      split <;> simp [*]

end DeclarationLog

/-- Frames that are given innermost first, each with its depth, outermost first. -/
def placed : List Nat → List PlacedFrame
  | [] => []
  | frame :: outer => placed outer ++ [⟨frame, outer.length⟩]

theorem map_placed (frames : List Nat) : (placed frames).map (·.frame) = frames.reverse := by
  induction frames with
  | nil => rfl
  | cons frame outer ih => simp [placed, ih]

theorem frame_of_mem_placed {frames : List Nat} {p : PlacedFrame} (h : p ∈ placed frames) :
    p.frame ∈ frames := by
  have hmem := List.mem_map_of_mem (f := PlacedFrame.frame) h
  rwa [map_placed, List.mem_reverse] at hmem

/-- One frame is in force at each depth. -/
theorem filter_placed (frames : List Nat) (n : Nat) :
    ((placed frames).filter (·.depth = n)).map (·.frame) = frames.reverse[n]?.toList := by
  induction frames with
  | nil => rfl
  | cons frame outer ih =>
    rw [placed, List.filter_append, List.map_append, ih, List.reverse_cons, List.getElem?_append,
      List.length_reverse]
    obtain hlt | rfl | hgt := Nat.lt_trichotomy n outer.length
    · have hne : outer.length ≠ n := by omega
      simp [hlt, hne]
    · simp
    · have hne : outer.length ≠ n := by omega
      have hnone : ([frame])[n - outer.length]? = none :=
        List.getElem?_eq_none (by rw [List.length_singleton]; omega)
      have hbeyond : outer.reverse[n]? = none :=
        List.getElem?_eq_none (by rw [List.length_reverse]; omega)
      rw [if_neg (by omega), hnone, hbeyond]
      simp [hne]

/-- Frames whose declarations have the depth of their frame are kept or dropped whole. -/
theorem filter_flatMap_depth {frames : List PlacedFrame} {content : PlacedFrame → List Declaration}
    (h : ∀ p ∈ frames, ∀ x ∈ content p, x.depth = p.depth) (n : Nat) :
    (frames.flatMap content).filter (·.depth = n) =
      (frames.filter (·.depth = n)).flatMap content := by
  induction frames with
  | nil => rfl
  | cons p rest ih =>
    obtain ⟨hp, hrest⟩ := List.forall_mem_cons.1 h
    rw [List.flatMap_cons, List.filter_append, ih hrest]
    by_cases hn : p.depth = n
    · have hall : (content p).filter (·.depth = n) = content p :=
        List.filter_eq_self.2 fun x hx => by simpa [hn] using hp x hx
      rw [hall, List.filter_cons_of_pos (by simpa using hn), List.flatMap_cons]
    · have hnone : (content p).filter (·.depth = n) = [] :=
        List.filter_eq_nil_iff.2 fun x hx => by simpa [hp x hx] using hn
      rw [hnone, List.filter_cons_of_neg (by simpa using hn), List.nil_append]

namespace DeclarationLog

theorem next_exit (log : DeclarationLog) :
    (log.next .exit).entries = log.entries ∧ (log.next .exit).entered = log.entered := by
  rw [next]
  split <;> exact ⟨rfl, rfl⟩

/-- The innermost frame is the one that is left. -/
theorem frames_exit (log : DeclarationLog) :
    log.frames = (log.leaves .exit).map (·.frame) ++ (log.next .exit).frames := by
  cases houter : log.outer with
  | nil => simp [next, leaves, frames, houter]
  | cons frame outer => simp [next, leaves, frames, houter]

theorem placed_exit (log : DeclarationLog) :
    placed log.frames = placed (log.next .exit).frames ++ log.leaves .exit := by
  cases houter : log.outer with
  | nil => simp [next, leaves, frames, houter]
  | cons frame outer => simp [next, leaves, frames, houter, placed]

end DeclarationLog

theorem depth_trans (a b c : Declaration) (hab : decide (a.depth ≤ b.depth) = true)
    (hbc : decide (b.depth ≤ c.depth) = true) : decide (a.depth ≤ c.depth) = true := by
  simp only [decide_eq_true_eq] at hab hbc ⊢
  omega

theorem depth_total (a b : Declaration) :
    (decide (a.depth ≤ b.depth) || decide (b.depth ≤ a.depth)) = true := by
  simp only [Bool.or_eq_true, decide_eq_true_eq]
  omega

/-- A stable sort by depth keeps the order within each depth. -/
theorem filter_mergeSort_depth (l : List Declaration) (n : Nat) :
    (l.mergeSort fun a b => a.depth ≤ b.depth).filter (·.depth = n) =
      l.filter (·.depth = n) := by
  have hpairs : (l.filter (·.depth = n)).Pairwise fun a b => decide (a.depth ≤ b.depth) = true :=
    List.pairwise_of_forall_mem_list fun a ha b hb => by
      simp only [List.mem_filter, decide_eq_true_eq] at ha hb ⊢
      omega
  have hsub := List.sublist_mergeSort depth_trans depth_total hpairs List.filter_sublist
  have hkept := hsub.filter (·.depth = n)
  rw [List.filter_filter] at hkept
  have hperm := (List.mergeSort_perm l fun a b => a.depth ≤ b.depth).filter (·.depth = n)
  refine (List.Sublist.eq_of_length ?_ hperm.length_eq.symm).symm
  simpa using hkept

namespace Declarations

/-- The declarations of all frames: those in force from the outermost on, then those left. -/
def everything (d : Declarations) : List Declaration :=
  (d.live.reverse ++ d.retired).flatMap (·.declarations)

theorem everything_eq (d : Declarations) :
    d.everything = d.outer.reverse.flatMap (·.declarations) ++
      (d.current.declarations ++ d.retired.flatMap (·.declarations)) := by
  simp [everything, live]

/-- An operation adds what it declares and moves the rest at most. -/
theorem everything_apply (d : Declarations) (op : DeclarationOp) (rest : List DeclarationOp) :
    ((d.apply op).everything ++ declarationsMade (d.apply op).depth rest).Perm
      (d.everything ++ declarationsMade d.depth (op :: rest)) := by
  rw [everything_eq, everything_eq]
  cases op with
  | declare name scope kind =>
    simp only [apply, declare, Frame.insert, declarationsMade, depth, List.append_assoc,
      List.singleton_append]
    exact (List.perm_middle.symm.append_left _).append_left _
  | enter => simp [apply, enter, declarationsMade, depth]
  | exit =>
    cases houter : d.outer with
    | nil => simp [apply, exit, declarationsMade, depth, houter]
    | cons frame outer =>
      have hmoved : (d.retired.flatMap (·.declarations) ++ d.current.declarations).Perm
          (d.current.declarations ++ d.retired.flatMap (·.declarations)) :=
        List.perm_append_comm
      simpa [apply, exit, declarationsMade, depth, houter, List.perm_append_left_iff] using
        hmoved.append_right (declarationsMade outer.length rest)

theorem everything_runFrom (d : Declarations) (ops : List DeclarationOp) :
    (d.runFrom ops).everything.Perm (d.everything ++ declarationsMade d.depth ops) := by
  induction ops generalizing d with
  | nil => simp [runFrom, declarationsMade]
  | cons op rest ih => exact (ih (d.apply op)).trans (d.everything_apply op rest)

/-- The log also tells the frames that were left, and each declaration has the depth of the frame
it was made in. -/
structure Kept (d : Declarations) (log : DeclarationLog) (left : List PlacedFrame) : Prop where
  logged : d.Logged log
  retired : d.retired.map (·.declarations) = left.map fun p => declarationsIn log.entries p.frame
  leftBefore : ∀ p ∈ left, p.frame ≤ log.entered ∧ p.frame ∉ log.frames
  depths : ∀ e ∈ log.entries, ∀ p ∈ placed log.frames ++ left, p.frame = e.frame →
    e.declaration.depth = p.depth

theorem Kept.empty : empty.Kept {} [] := ⟨.empty, rfl, by simp, by simp⟩

namespace Kept
variable {d : Declarations} {log : DeclarationLog} {left : List PlacedFrame} (h : d.Kept log left)
include h

theorem declare (name : String) (scope : VariableClass) (kind : Option Kind) :
    (d.declare name scope kind).Kept (log.next (.declare name scope kind)) left := by
  refine ⟨h.logged.declare name scope kind, ?_, h.leftBefore, fun e he p hp hframe => ?_⟩
  · refine h.retired.trans (List.map_congr_left fun p hp => ?_)
    have hne : log.current ≠ p.frame := fun heq =>
      (h.leftBefore p hp).2 (heq ▸ List.mem_cons_self)
    change _ = declarationsIn (log.entries ++ [_]) p.frame
    rw [declarationsIn_append, if_neg hne, List.append_nil]
  · obtain he | he := List.mem_append.1 he
    · exact h.depths e he p hp hframe
    · -- The new declaration is in the current frame, and no other frame has its number.
      obtain rfl := List.mem_singleton.1 he
      change log.outer.length = p.depth
      change p.frame = log.current at hframe
      obtain hp | hp := List.mem_append.1 hp
      · obtain hp | hp := List.mem_append.1 hp
        · exact absurd (hframe ▸ frame_of_mem_placed hp) h.logged.ordered.current_not_mem
        · obtain rfl := List.mem_singleton.1 hp
          rfl
      · exact absurd (hframe ▸ List.mem_cons_self) (h.leftBefore p hp).2

theorem enter : d.enter.Kept (log.next .enter) left := by
  have hfresh : log.entered + 1 ∉ log.frames := fun hmem => by
    have hle := h.logged.ordered.entered _ hmem
    omega
  refine ⟨h.logged.enter, h.retired, fun p hp => ?_, fun e he p hp hframe => ?_⟩
  · obtain ⟨hle, hnot⟩ := h.leftBefore p hp
    refine ⟨Nat.le_succ_of_le hle, List.not_mem_cons_of_ne_of_not_mem ?_ hnot⟩
    change p.frame ≠ log.entered + 1
    omega
  · have hframes : placed (log.next .enter).frames =
        placed log.frames ++ [⟨log.entered + 1, log.frames.length⟩] := rfl
    rw [hframes, List.append_assoc] at hp
    obtain hp | hp := List.mem_append.1 hp
    · exact h.depths e he p (List.mem_append_left _ hp) hframe
    · obtain rfl | hp := List.mem_cons.1 hp
      · exact absurd hframe.symm (h.logged.ordered.not_entered he)
      · exact h.depths e he p (List.mem_append_right _ hp) hframe

theorem retired_exit :
    d.exit.retired.map (·.declarations) = d.retired.map (·.declarations) ++
      (log.leaves .exit).map fun p => declarationsIn log.entries p.frame := by
  have houter := h.logged.outer
  cases hframes : log.outer with
  | nil =>
    rw [hframes, List.map_nil, List.map_eq_nil_iff] at houter
    simp [Declarations.exit, DeclarationLog.leaves, houter, hframes]
  | cons frame outer =>
    rw [hframes, List.map_cons, List.map_eq_cons_iff] at houter
    obtain ⟨_, _, houter, _⟩ := houter
    simp [Declarations.exit, DeclarationLog.leaves, houter, hframes, h.logged.current]

theorem exit : d.exit.Kept (log.next .exit) (left ++ log.leaves .exit) := by
  obtain ⟨hentries, hentered⟩ := log.next_exit
  have hframes := log.frames_exit
  refine ⟨h.logged.exit, ?_, fun p hp => ?_, fun e he p hp => ?_⟩
  · rw [h.retired_exit, h.retired, hentries, List.map_append]
  · rw [hentered]
    obtain hp | hp := List.mem_append.1 hp
    · obtain ⟨hle, hnot⟩ := h.leftBefore p hp
      rw [hframes] at hnot
      exact ⟨hle, fun hmem => hnot (List.mem_append_right _ hmem)⟩
    · have hmem := List.mem_map_of_mem (f := PlacedFrame.frame) hp
      have hdistinct := h.logged.ordered.distinct
      rw [hframes] at hdistinct
      refine ⟨h.logged.ordered.entered _ ?_, fun hin => ?_⟩
      · rw [hframes]
        exact List.mem_append_left _ hmem
      · exact (List.nodup_append.1 hdistinct).2.2 _ hmem _ hin rfl
  · rw [hentries] at he
    refine h.depths e he p ?_
    rw [log.placed_exit]
    simp only [List.mem_append] at hp ⊢
    obtain hp | hp | hp := hp
    · exact .inl (.inl hp)
    · exact .inr hp
    · exact .inl (.inr hp)

theorem apply (op : DeclarationOp) : (d.apply op).Kept (log.next op) (left ++ log.leaves op) := by
  cases op with
  | declare name scope kind =>
    have hsame : left ++ log.leaves (.declare name scope kind) = left := List.append_nil left
    rw [hsame]
    exact h.declare name scope kind
  | enter =>
    have hsame : left ++ log.leaves .enter = left := List.append_nil left
    rw [hsame]
    exact h.enter
  | exit => exact h.exit

theorem runFrom (ops : List DeclarationOp) :
    (d.runFrom ops).Kept (log.extend ops) (left ++ log.leavesAll ops) := by
  induction ops generalizing d log left with
  | nil =>
    rw [DeclarationLog.leavesAll, List.append_nil]
    exact h
  | cons op rest ih =>
    rw [DeclarationLog.leavesAll, ← List.append_assoc]
    exact ih (h.apply op)

theorem everything_eq : d.everything =
    (placed log.frames ++ left).flatMap fun p => declarationsIn log.entries p.frame := by
  have hlive : d.live.reverse.map (·.declarations) =
      (placed log.frames).map fun p => declarationsIn log.entries p.frame := by
    rw [List.map_reverse, h.logged.frames, ← List.map_reverse, ← map_placed, List.map_map]
    rfl
  rw [everything, List.flatMap_def, List.map_append, hlive, h.retired, ← List.map_append,
    List.flatMap_def]

/-- Among the declarations of one depth those of the frame in force come first, then those of the
frames that were left, in the order of leaving. -/
theorem filter_everything (n : Nat) : d.everything.filter (·.depth = n) =
    ((log.frameAt? n).toList ++ (left.filter (·.depth = n)).map (·.frame)).flatMap
      (declarationsIn log.entries) := by
  have hdepths : ∀ p ∈ placed log.frames ++ left, ∀ x ∈ declarationsIn log.entries p.frame,
      x.depth = p.depth := by
    intro p hp x hx
    obtain ⟨e, he, rfl⟩ := List.mem_map.1 hx
    exact h.depths e (List.mem_filter.1 he).1 p hp (frame_of_mem_entriesIn he).symm
  rw [h.everything_eq, filter_flatMap_depth hdepths, DeclarationLog.frameAt?, ← filter_placed,
    ← List.map_append, ← List.filter_append, List.flatMap_map]

end Kept

/-- No declaration is lost. After any operations all that were made are listed, each once and with
the depth it was made at, sorted by depth; within a depth those of the frame in force come first,
then those of the frames that were left, in the order of leaving, and each frame keeps the order in
which it got them. -/
theorem run_all (ops : List DeclarationOp) :
    (run ops).all.Perm (declarationsMade 0 ops) ∧
    (run ops).all.Pairwise (fun a b => a.depth ≤ b.depth) ∧
    (DeclarationLog.extend {} ops).entries.map (·.declaration) = declarationsMade 0 ops ∧
    ∀ n, (run ops).all.filter (·.depth = n) =
      (((DeclarationLog.extend {} ops).frameAt? n).toList ++
        ((DeclarationLog.leavesAll {} ops).filter (·.depth = n)).map (·.frame)).flatMap
          (declarationsIn (DeclarationLog.extend {} ops).entries) := by
  have hkept := Kept.empty.runFrom ops
  refine ⟨?_, ?_, DeclarationLog.extend_entries {} ops, fun n => ?_⟩
  · exact (List.mergeSort_perm _ _).trans (empty.everything_runFrom ops)
  · have hsorted := List.pairwise_mergeSort depth_trans depth_total (run ops).everything
    exact hsorted.imp of_decide_eq_true
  · exact (filter_mergeSort_depth _ n).trans (hkept.filter_everything n)

end Declarations
end BlockTemplate
