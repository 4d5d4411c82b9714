import BlockTemplate.Proofs.Session.Frames

/-! Declarations against a log. A name refers to its latest declaration in time among those whose
frame was not left, a variable is visible if any of these declares it, and the conflicts are those
between neighbours in this sense. -/
namespace BlockTemplate

/-- What is done to declarations. -/
inductive DeclarationOp where
  | declare (name : String) (scope : VariableClass) (kind : Option Kind)
  | enter
  | exit

namespace Declarations

def apply (d : Declarations) : DeclarationOp → Declarations
  | .declare name scope kind => d.declare name scope kind
  | .enter => d.enter
  | .exit => d.exit

def runFrom (d : Declarations) : List DeclarationOp → Declarations
  | [] => d
  | op :: rest => (d.apply op).runFrom rest

def run (ops : List DeclarationOp) : Declarations := empty.runFrom ops

end Declarations

/-- A declaration, with the number of the frame that it was made in. -/
structure LogEntry where
  declaration : Declaration
  frame : Nat

/-- All declarations in the order they were made, and the frames that were not left. Frames are
numbered as they are entered, from 0 for the outermost. -/
structure DeclarationLog where
  entries : List LogEntry := []
  current : Nat := 0
  /-- The frames around the current one, innermost first. -/
  outer : List Nat := []
  entered : Nat := 0

namespace DeclarationLog

def frames (log : DeclarationLog) : List Nat := log.current :: log.outer

def next (log : DeclarationLog) : DeclarationOp → DeclarationLog
  | .declare name scope kind =>
    { log with entries := log.entries ++ [⟨⟨name, scope, kind, log.outer.length⟩, log.current⟩] }
  | .enter =>
    { log with
      current := log.entered + 1
      outer := log.current :: log.outer
      entered := log.entered + 1 }
  | .exit =>
    match log.outer with
    | [] => log
    | frame :: outer => { log with current := frame, outer := outer }

/-- The log of operations on top of what was logged before. -/
def extend (log : DeclarationLog) : List DeclarationOp → DeclarationLog
  | [] => log
  | op :: rest => (log.next op).extend rest

def liveEntries (log : DeclarationLog) : List LogEntry :=
  log.entries.filter fun e => log.frames.contains e.frame

/-- The declarations whose frame was not left, oldest first. -/
def live (log : DeclarationLog) : List Declaration := log.liveEntries.map (·.declaration)

def latest? (log : DeclarationLog) (name : String) : Option Declaration :=
  (log.live.filter (·.name = name)).getLast?

end DeclarationLog

/-- A declaration of another kind than the latest one of its name, where both kinds are given. -/
def DeclarationOp.conflict? (log : DeclarationLog) : DeclarationOp → Option KindConflict
  | .declare name _ (some declared) =>
    match log.latest? name with
    | some ⟨_, _, some previous, _⟩ =>
      if previous = declared then none else some ⟨name, previous, declared⟩
    | _ => none
  | _ => none

def conflictsFrom (log : DeclarationLog) : List DeclarationOp → List KindConflict
  | [] => []
  | op :: rest => (op.conflict? log).toList ++ conflictsFrom (log.next op) rest

def entriesIn (entries : List LogEntry) (frame : Nat) : List LogEntry :=
  entries.filter (·.frame == frame)

/-- The entries of frames that are given innermost first, those of the outermost frame first. -/
def entriesInAll (entries : List LogEntry) : List Nat → List LogEntry
  | [] => []
  | frame :: outer => entriesInAll entries outer ++ entriesIn entries frame

section Entries
variable {entries : List LogEntry} {e : LogEntry} {frame : Nat} {frames : List Nat}

theorem frame_of_mem_entriesIn (h : e ∈ entriesIn entries frame) : e.frame = frame := by
  simpa using (List.mem_filter.1 h).2

theorem frame_of_mem_entriesInAll (h : e ∈ entriesInAll entries frames) : e.frame ∈ frames := by
  induction frames with
  | nil => cases h
  | cons frame outer ih =>
    obtain h | h := List.mem_append.1 h
    · exact List.mem_cons_of_mem _ (ih h)
    · rw [frame_of_mem_entriesIn h]
      exact List.mem_cons_self

theorem entriesIn_append (entries : List LogEntry) (e : LogEntry) (frame : Nat) :
    entriesIn (entries ++ [e]) frame =
      entriesIn entries frame ++ if e.frame = frame then [e] else [] := by
  by_cases h : e.frame = frame <;> simp [entriesIn, h]

/-- An entry of another frame is passed over. -/
theorem entriesInAll_append (h : e.frame ∉ frames) :
    entriesInAll (entries ++ [e]) frames = entriesInAll entries frames := by
  induction frames with
  | nil => rfl
  | cons frame outer ih =>
    obtain ⟨hframe, houter⟩ := not_or.1 (mt List.mem_cons.2 h)
    rw [entriesInAll, ih houter, entriesIn_append, if_neg hframe, List.append_nil, entriesInAll]

end Entries

namespace DeclarationLog

/-- Frames are younger the further in they are, and so are the declarations in them: in time, the
live entries are those of the outermost frame, then those of the next, and so on. -/
structure Ordered (log : DeclarationLog) : Prop where
  known : ∀ e ∈ log.entries, e.frame ≤ log.entered
  entered : ∀ f ∈ log.frames, f ≤ log.entered
  distinct : log.frames.Nodup
  live : log.liveEntries = entriesInAll log.entries log.frames

theorem Ordered.empty : Ordered {} :=
  ⟨by simp, by simp [frames], by simp [frames], rfl⟩

namespace Ordered
variable {log : DeclarationLog} (h : log.Ordered)
include h

theorem not_entered {e : LogEntry} (he : e ∈ log.entries) : e.frame ≠ log.entered + 1 := by
  have hle := h.known e he
  omega

/-- A frame that begins only now has no declarations. -/
theorem entriesIn_entered : entriesIn log.entries (log.entered + 1) = [] := by
  simpa [entriesIn] using fun e => h.not_entered (e := e)

theorem current_not_mem : log.current ∉ log.outer := (List.nodup_cons.1 h.distinct).1

theorem declare (name : String) (scope : VariableClass) (kind : Option Kind) :
    (log.next (.declare name scope kind)).Ordered := by
  refine ⟨?_, h.entered, h.distinct, ?_⟩
  · intro e he
    obtain he | he := List.mem_append.1 he
    · exact h.known e he
    · rw [List.mem_singleton.1 he]
      exact h.entered _ List.mem_cons_self
  · have hlive := h.live
    rw [liveEntries] at hlive
    rw [liveEntries, next, List.filter_append]
    change _ = entriesInAll (log.entries ++ [_]) log.outer ++ entriesIn (log.entries ++ [_]) _
    rw [entriesInAll_append h.current_not_mem, entriesIn_append, if_pos rfl, ← List.append_assoc]
    change _ = entriesInAll log.entries log.frames ++ _
    rw [← hlive]
    simp [frames]

theorem enter : (log.next .enter).Ordered := by
  have hfresh : log.entered + 1 ∉ log.frames := fun hmem => by
    have hle := h.entered _ hmem
    omega
  refine ⟨fun e he => Nat.le_succ_of_le (h.known e he), ?_, List.nodup_cons.2 ⟨hfresh, h.distinct⟩,
    ?_⟩
  · exact List.forall_mem_cons.2 ⟨Nat.le_refl _, fun f hf => Nat.le_succ_of_le (h.entered f hf)⟩
  · have hsame : (log.next .enter).liveEntries = log.liveEntries :=
      List.filter_congr fun e he => by simp [next, frames, h.not_entered he]
    change _ = entriesInAll log.entries log.frames ++ entriesIn log.entries (log.entered + 1)
    rw [hsame, h.live, h.entriesIn_entered, List.append_nil]

/-- Leaving a frame takes away the youngest entries and no others. -/
theorem exit : (log.next .exit).Ordered := by
  cases houter : log.outer with
  | nil =>
    have hsame : log.next .exit = log := by simp [next, houter]
    rwa [hsame]
  | cons frame outer =>
    obtain ⟨hknown, hentered, hdistinct, hlive⟩ := h
    simp only [frames, houter, liveEntries] at hentered hdistinct hlive
    obtain ⟨hcurrent, hrest⟩ := List.nodup_cons.1 hdistinct
    have hnext : log.next .exit = { log with current := frame, outer := outer } := by
      simp [next, houter]
    rw [hnext]
    refine ⟨hknown, fun f hf => hentered f (List.mem_cons_of_mem _ hf), hrest, ?_⟩
    have hkeep : (entriesInAll log.entries (frame :: outer)).filter
        (fun e => (frame :: outer).contains e.frame) = entriesInAll log.entries (frame :: outer) :=
      List.filter_eq_self.2 fun e he => by simpa using frame_of_mem_entriesInAll he
    have hdrop : (entriesIn log.entries log.current).filter
        (fun e => (frame :: outer).contains e.frame) = [] :=
      List.filter_eq_nil_iff.2 fun e he => by
        rw [frame_of_mem_entriesIn he]
        simpa using hcurrent
    calc log.entries.filter (fun e => (frame :: outer).contains e.frame)
      _ = (log.entries.filter fun e => (log.current :: frame :: outer).contains e.frame).filter
            (fun e => (frame :: outer).contains e.frame) := by
          rw [List.filter_filter]
          refine List.filter_congr fun e _ => ?_
          rw [List.contains_cons (a := log.current)]
          cases (frame :: outer).contains e.frame <;> simp
      _ = entriesInAll log.entries (frame :: outer) := by
          rw [hlive, entriesInAll, List.filter_append, hkeep, hdrop, List.append_nil]

end Ordered

end DeclarationLog

/-- The declarations made in a frame, oldest first. -/
def declarationsIn (entries : List LogEntry) (frame : Nat) : List Declaration :=
  (entriesIn entries frame).map (·.declaration)

theorem declarationsIn_append (entries : List LogEntry) (e : LogEntry) (frame : Nat) :
    declarationsIn (entries ++ [e]) frame =
      declarationsIn entries frame ++ if e.frame = frame then [e.declaration] else [] := by
  rw [declarationsIn, entriesIn_append, List.map_append, declarationsIn]
  by_cases h : e.frame = frame <;> simp [h]

theorem map_entriesInAll (entries : List LogEntry) (frames : List Nat) :
    (entriesInAll entries frames).map (·.declaration) =
      (frames.map (declarationsIn entries)).reverse.flatten := by
  induction frames with
  | nil => rfl
  | cons frame outer ih => simp [entriesInAll, ih, declarationsIn]

/-- The last of its name in time is the last of its name in the innermost frame that has one, as
long as inner frames come later in time. -/
theorem getLast?_filter_flatten (frames : List (List Declaration)) (name : String) :
    (frames.reverse.flatten.filter (·.name = name)).getLast? =
      frames.findSome? (·.reverse.find? (·.name == name)) := by
  have hrev : frames.reverse.flatten.reverse = (frames.map List.reverse).flatten := by
    simp [List.reverse_flatten]
  rw [List.getLast?_eq_head?_reverse, ← List.filter_reverse, List.head?_filter, hrev,
    List.find?_flatten, List.findSome?_map]
  rfl

namespace Declarations

/-- The frames in force hold what the log has of them, and find it by name. -/
structure Logged (d : Declarations) (log : DeclarationLog) : Prop where
  ordered : log.Ordered
  frames : d.live.map (·.declarations) = log.frames.map (declarationsIn log.entries)
  indexed : d.Indexed

theorem Logged.empty : empty.Logged {} := ⟨.empty, rfl, .empty⟩

namespace Logged
variable {d : Declarations} {log : DeclarationLog} (h : d.Logged log)
include h

theorem current : d.current.declarations = declarationsIn log.entries log.current :=
  (List.cons.inj h.frames).1

theorem outer : d.outer.map (·.declarations) = log.outer.map (declarationsIn log.entries) :=
  (List.cons.inj h.frames).2

theorem depth : d.depth = log.outer.length := by
  have hlength := congrArg List.length h.frames
  simpa [Declarations.live, DeclarationLog.frames, Declarations.depth] using hlength

theorem live : log.live = (d.live.map (·.declarations)).reverse.flatten := by
  rw [DeclarationLog.live, h.ordered.live, map_entriesInAll, h.frames]

theorem find? (name : String) : d.find? name = log.latest? name := by
  rw [DeclarationLog.latest?, h.live, getLast?_filter_flatten, h.indexed.find?_eq,
    List.findSome?_map]
  rfl

theorem isVisible_iff (v : VarRef) : d.isVisible v = true ↔ ∃ x ∈ log.live, x.ref = v := by
  rw [h.live, Declarations.isVisible_iff]
  simp only [List.mem_flatten, List.mem_reverse, List.mem_map]
  constructor
  · rintro ⟨frame, hframe, x, hx, hv⟩
    exact ⟨x, ⟨_, ⟨frame, hframe, rfl⟩, hx⟩, hv⟩
  · rintro ⟨x, ⟨_, ⟨frame, hframe, rfl⟩, hx⟩, hv⟩
    exact ⟨frame, hframe, x, hx, hv⟩

theorem conflict? (name : String) (scope : VariableClass) (kind : Option Kind) :
    d.conflict? name kind = (DeclarationOp.declare name scope kind).conflict? log := by
  rw [Declarations.conflict?, h.find?]
  cases hlatest : log.latest? name with
  | none => cases kind <;> simp [DeclarationOp.conflict?, hlatest]
  | some latest =>
    obtain ⟨_, _, previous, _⟩ := latest
    cases kind <;> cases previous <;> simp [DeclarationOp.conflict?, hlatest]

theorem declare (name : String) (scope : VariableClass) (kind : Option Kind) :
    (d.declare name scope kind).Logged (log.next (.declare name scope kind)) := by
  refine ⟨h.ordered.declare name scope kind, ?_, h.indexed.declare name scope kind⟩
  have hothers : log.outer.map (declarationsIn (log.entries ++
      [⟨⟨name, scope, kind, log.outer.length⟩, log.current⟩])) =
        log.outer.map (declarationsIn log.entries) := by
    refine List.map_congr_left fun f hf => ?_
    have hne : log.current ≠ f := fun heq => h.ordered.current_not_mem (heq ▸ hf)
    rw [declarationsIn_append, if_neg hne, List.append_nil]
  change (d.current.declarations ++ [⟨name, scope, kind, d.depth⟩]) ::
      d.outer.map (·.declarations) =
    declarationsIn (log.entries ++ [_]) log.current ::
      log.outer.map (declarationsIn (log.entries ++ [_]))
  rw [hothers, declarationsIn_append, if_pos rfl, h.current, h.outer, h.depth]

theorem enter : d.enter.Logged (log.next .enter) := by
  refine ⟨h.ordered.enter, ?_, h.indexed.enter⟩
  change [] :: d.live.map (·.declarations) =
    declarationsIn log.entries (log.entered + 1) :: log.frames.map _
  rw [declarationsIn, h.ordered.entriesIn_entered, h.frames]
  rfl

theorem exit : d.exit.Logged (log.next .exit) := by
  have houter := h.outer
  refine ⟨h.ordered.exit, ?_, h.indexed.exit⟩
  cases hframes : log.outer with
  | nil =>
    rw [hframes, List.map_nil, List.map_eq_nil_iff] at houter
    simpa [Declarations.exit, DeclarationLog.next, houter, hframes] using h.frames
  | cons frame outer =>
    rw [hframes, List.map_cons, List.map_eq_cons_iff] at houter
    obtain ⟨inner, others, houter, hinner, hothers⟩ := houter
    simp [Declarations.exit, DeclarationLog.next, houter, hframes, Declarations.live,
      DeclarationLog.frames, hinner, hothers]

theorem apply (op : DeclarationOp) : (d.apply op).Logged (log.next op) := by
  cases op with
  | declare name scope kind => exact h.declare name scope kind
  | enter => exact h.enter
  | exit => exact h.exit

theorem apply_conflicts (op : DeclarationOp) :
    (d.apply op).conflicts = d.conflicts ++ (op.conflict? log).toList := by
  cases op with
  | declare name scope kind => rw [← h.conflict? name scope kind]; rfl
  | enter => simp [Declarations.apply, Declarations.enter, DeclarationOp.conflict?]
  | exit =>
    simp only [Declarations.apply, Declarations.exit, DeclarationOp.conflict?]
    split <;> simp

theorem runFrom (ops : List DeclarationOp) : (d.runFrom ops).Logged (log.extend ops) := by
  induction ops generalizing d log with
  | nil => exact h
  | cons op rest ih => exact ih (h.apply op)

theorem runFrom_conflicts (ops : List DeclarationOp) :
    (d.runFrom ops).conflicts = d.conflicts ++ conflictsFrom log ops := by
  induction ops generalizing d log with
  | nil => simp [Declarations.runFrom, conflictsFrom]
  | cons op rest ih =>
    rw [Declarations.runFrom, ih (h.apply op), h.apply_conflicts, List.append_assoc, conflictsFrom]

end Logged

/-- After any operations a name refers to its latest live declaration, a variable is visible if and
only if some live declaration is of it, shadowed or not, and the conflicts are, in order, those of
the declarations with the live ones before them. In every frame, left or not, the index has the
names that were declared there and leads to the latest declaration of each. -/
theorem run_logged (ops : List DeclarationOp) :
    (∀ name, (run ops).resolve? name =
      ((DeclarationLog.extend {} ops).latest? name).map (·.ref)) ∧
    (∀ v, (run ops).isVisible v = true ↔ ∃ d ∈ (DeclarationLog.extend {} ops).live, d.ref = v) ∧
    (run ops).conflicts = conflictsFrom {} ops ∧
    ∀ f ∈ (run ops).live ++ (run ops).retired, f.Indexed := by
  have hlogged := Logged.empty.runFrom ops
  refine ⟨fun name => ?_, hlogged.isVisible_iff, ?_, hlogged.indexed⟩
  · rw [resolve?, run, hlogged.find?]
  · rw [run, Logged.empty.runFrom_conflicts]
    rfl

end Declarations
end BlockTemplate
