import BlockTemplate.Proofs.Session.CallTree
import BlockTemplate.Proofs.Session.Visibility

/-! What holds of every state of a session, whatever was called and refused before: its scopes are
nested and closed as they should be, and the indices in it rise in the order of the tree. -/
namespace BlockTemplate

/-- A scope as a session keeps it, closed or still open. -/
structure ScopeState where
  header : Header
  openAt : Nat
  elseAt : Option Nat
  closeAt : Option Nat
  body : List Node
  elseBody : Option (List Node)

mutual

/-- All indices in the node, from its first part to its last. -/
def Node.indices : Node → List Nat
  | .action index _ => [index]
  | .scope _ openAt elseAt closeAt body none =>
    openAt :: indicesOf body ++ elseAt.toList ++ closeAt.toList
  | .scope _ openAt elseAt closeAt body (some elseBody) =>
    openAt :: indicesOf body ++ elseAt.toList ++ indicesOf elseBody ++ closeAt.toList

def indicesOf : List Node → List Nat
  | [] => []
  | n :: rest => n.indices ++ indicesOf rest

end

mutual

/-- The scopes in the node at any depth, itself first. -/
def Node.scopes : Node → List ScopeState
  | .action _ _ => []
  | .scope header openAt elseAt closeAt body none =>
    ⟨header, openAt, elseAt, closeAt, body, none⟩ :: scopesOf body
  | .scope header openAt elseAt closeAt body (some elseBody) =>
    ⟨header, openAt, elseAt, closeAt, body, some elseBody⟩ :: (scopesOf body ++ scopesOf elseBody)

def scopesOf : List Node → List ScopeState
  | [] => []
  | n :: rest => n.scopes ++ scopesOf rest

end

namespace ScopeState

def others (v : ScopeState) : List Node := v.elseBody.getD []

/-- The indices strictly inside the scope. -/
def inside (v : ScopeState) : List Nat :=
  indicesOf v.body ++ v.elseAt.toList ++ indicesOf v.others

def indices (v : ScopeState) : List Nat := v.openAt :: v.inside ++ v.closeAt.toList

/-- What a scope has in its else branch, and how its indices lie. The index `next` stands for the
close of a scope that is open. -/
structure Ordered (next : Nat) (v : ScopeState) : Prop where
  hasElse : v.elseBody.isSome ↔ v.header.kind = .ifElse
  ifElse : v.elseAt.isSome → v.header.kind = .ifElse
  between : ∀ i ∈ v.inside, v.openAt < i ∧ i < v.closeAt.getD next
  body : (indicesOf v.body).Pairwise (· < ·)
  elseBody : (indicesOf v.others).Pairwise (· < ·)
  beforeElse : ∀ e ∈ v.elseAt, ∀ i ∈ indicesOf v.body, i < e
  afterElse : ∀ e ∈ v.elseAt, ∀ i ∈ indicesOf v.others, e < i
  untouched : v.elseAt = none → v.others = []

end ScopeState

namespace OpenScope

def state (o : OpenScope) : ScopeState :=
  ⟨o.header, o.openAt, o.elseAt, none, o.body, o.elseBody⟩

def indices (o : OpenScope) : List Nat := o.openAt :: o.state.inside

/-- The scopes in its branches. -/
def stored (o : OpenScope) : List ScopeState := scopesOf o.body ++ scopesOf o.others

end OpenScope

/-- The indices of open scopes, innermost first. -/
def indicesOfScopes : List OpenScope → List Nat
  | [] => []
  | o :: rest => indicesOfScopes rest ++ o.indices

namespace Session

/-- The indices anywhere in a session, those of the innermost open scope last. -/
def indices (s : Session) : List Nat := indicesOf s.root ++ indicesOfScopes s.opened

/-- The scopes in the branches of a session, at any depth. -/
def stored (s : Session) : List ScopeState := scopesOf s.root ++ s.opened.flatMap (·.stored)

def scopes (s : Session) : List ScopeState := s.stored ++ s.opened.map (·.state)

/-- Frames and scopes go together, what is stored is closed, and every index is that of a call of
its own, in the order of the tree. -/
structure Coherent (s : Session) : Prop where
  frames : s.declarations.depth = s.opened.length
  closed : ∀ v ∈ s.stored, v.closeAt.isSome
  ordered : ∀ v ∈ s.scopes, v.Ordered s.next
  switched : ∀ o ∈ s.opened, o.inElse = o.elseAt.isSome
  rising : s.indices.Pairwise (· < ·)
  distinct : s.indices.Nodup
  made : ∀ i ∈ s.indices, i < s.next

end Session

/-! Indices and calls of a tree. -/

mutual

theorem Node.Whole.indices_eq (n : Node) (h : n.Whole) : n.indices = n.calls.map (·.1) := by
  match n with
  | .action index call => rfl
  | .scope header openAt elseAt closeAt body none =>
    obtain ⟨_, _, helse, hbody⟩ := h
    simp [Node.indices, Node.calls, hbody.indices_eq, helse, Function.comp_def]
  | .scope header openAt elseAt closeAt body (some elseBody) =>
    obtain ⟨_, _, _, hbody, hother⟩ := h
    simp [Node.indices, Node.calls, hbody.indices_eq, hother.indices_eq, Function.comp_def]

theorem WholeNodes.indices_eq {nodes : List Node} (h : WholeNodes nodes) :
    indicesOf nodes = (callsOf nodes).map (·.1) := by
  match nodes with
  | [] => rfl
  | n :: rest =>
    rw [indicesOf, callsOf, List.map_append, Node.Whole.indices_eq n h.1, h.2.indices_eq]

end

theorem OpenScope.Whole.indices_eq {o : OpenScope} (h : o.Whole) :
    o.indices = o.calls.map (·.1) := by
  have hothers := h.others.indices_eq
  rw [OpenScope.others] at hothers
  simp [OpenScope.indices, state, ScopeState.inside, ScopeState.others, OpenScope.calls,
    OpenScope.others,    h.body.indices_eq, hothers, Function.comp_def]

theorem indicesOfScopes_eq {scopes : List OpenScope} (h : ∀ o ∈ scopes, o.Whole) :
    indicesOfScopes scopes = (callsOfScopes scopes).map (·.1) := by
  induction scopes with
  | nil => rfl
  | cons o rest ih =>
    rw [List.forall_mem_cons] at h
    rw [indicesOfScopes, callsOfScopes, List.map_append, ih h.2, h.1.indices_eq]

theorem Session.Whole.indices_eq {s : Session} (h : s.Whole) :
    s.indices = s.calls.map (·.1) := by
  rw [Session.indices, Session.calls, List.map_append, h.root.indices_eq,
    indicesOfScopes_eq h.opened]

theorem treeCalls_bounds {index i : Nat} {past : List (SessionCall × Bool)}
    (h : i ∈ (treeCalls index past).map (·.1)) : index ≤ i ∧ i < index + past.length := by
  obtain ⟨⟨i, c⟩, hmem, rfl⟩ := List.mem_map.1 h
  obtain ⟨j, hi, hget⟩ := mem_treeCalls hmem
  have hj : j < past.length := (List.getElem?_eq_some_iff.1 hget).1
  constructor <;> simp only [hi] <;> omega

theorem treeCalls_rising (index : Nat) (past : List (SessionCall × Bool)) :
    ((treeCalls index past).map (·.1)).Pairwise (· < ·) := by
  induction past generalizing index with
  | nil => exact List.Pairwise.nil
  | cons x rest ih =>
    rw [treeCalls_cons, List.map_append, List.pairwise_append]
    refine ⟨?_, ih (index + 1), fun i hi j hj => ?_⟩
    · obtain ⟨call, ok⟩ := x
      cases call <;> cases ok <;> simp [treeCalls]
    · have hfirst := treeCalls_bounds hi
      have hrest := treeCalls_bounds hj
      simp only [List.length_singleton] at hfirst
      omega

/-! Scopes of a tree. -/

/-- Of a scope in a whole tree. -/
structure ScopeState.Whole (v : ScopeState) : Prop where
  closed : v.closeAt.isSome
  hasElse : v.elseBody.isSome ↔ v.header.kind = .ifElse
  ifElse : v.elseAt.isSome → v.header.kind = .ifElse
  untouched : v.elseAt = none → v.others = []

mutual

theorem Node.Whole.scopes (n : Node) (h : n.Whole) : ∀ v ∈ n.scopes, v.Whole := by
  match n with
  | .action index call => simp [Node.scopes]
  | .scope header openAt elseAt closeAt body none =>
    obtain ⟨hclose, hkind, helse, hbody⟩ := h
    have hnode : ScopeState.Whole ⟨header, openAt, elseAt, closeAt, body, none⟩ :=
      ⟨hclose, by simpa using hkind, by simp [helse], fun _ => rfl⟩
    exact List.forall_mem_cons.2 ⟨hnode, hbody.scopes⟩
  | .scope header openAt elseAt closeAt body (some elseBody) =>
    obtain ⟨hclose, hkind, hnone, hbody, hother⟩ := h
    have hnode : ScopeState.Whole ⟨header, openAt, elseAt, closeAt, body, some elseBody⟩ :=
      ⟨hclose, by simpa using hkind, fun _ => hkind, hnone⟩
    refine List.forall_mem_cons.2 ⟨hnode, fun v hv => ?_⟩
    exact (List.mem_append.1 hv).elim (hbody.scopes v) (hother.scopes v)

theorem WholeNodes.scopes {nodes : List Node} (h : WholeNodes nodes) :
    ∀ v ∈ scopesOf nodes, v.Whole := by
  match nodes with
  | [] => simp [scopesOf]
  | n :: rest =>
    intro v hv
    exact (List.mem_append.1 hv).elim (Node.Whole.scopes n h.1 v) (h.2.scopes v)

end

theorem ScopeState.indices_eq (header : Header) (openAt : Nat) (elseAt closeAt : Option Nat)
    (body : List Node) (elseBody : Option (List Node)) :
    ScopeState.indices ⟨header, openAt, elseAt, closeAt, body, elseBody⟩ =
      (Node.scope header openAt elseAt closeAt body elseBody).indices := by
  cases elseBody <;>
    simp [ScopeState.indices, ScopeState.inside, ScopeState.others, Node.indices, indicesOf]

mutual

/-- The indices of a scope stand together in those of the tree around it. -/
theorem Node.indices_sublist (n : Node) {v : ScopeState} (h : v ∈ n.scopes) :
    v.indices.Sublist n.indices := by
  match n with
  | .action index call => simp [Node.scopes] at h
  | .scope header openAt elseAt closeAt body none =>
    obtain rfl | h := List.mem_cons.1 h
    · simp only [ScopeState.indices_eq, List.Sublist.refl]
    · rw [Node.indices, List.cons_append, List.cons_append, List.append_assoc]
      exact ((indicesOf_sublist body h).trans (List.sublist_append_left _ _)).cons _
  | .scope header openAt elseAt closeAt body (some elseBody) =>
    obtain rfl | h := List.mem_cons.1 h
    · simp only [ScopeState.indices_eq, List.Sublist.refl]
    · rw [Node.indices, List.cons_append, List.cons_append, List.cons_append, List.append_assoc,
        List.append_assoc]
      refine List.Sublist.cons _ ?_
      obtain h | h := List.mem_append.1 h
      · exact (indicesOf_sublist body h).trans (List.sublist_append_left _ _)
      · refine (indicesOf_sublist elseBody h).trans ?_
        refine (List.sublist_append_left _ closeAt.toList).trans ?_
        exact (List.sublist_append_right _ _).trans (List.sublist_append_right _ _)

theorem indicesOf_sublist (nodes : List Node) {v : ScopeState} (h : v ∈ scopesOf nodes) :
    v.indices.Sublist (indicesOf nodes) := by
  match nodes with
  | [] => simp [scopesOf] at h
  | n :: rest =>
    rw [indicesOf]
    obtain h | h := List.mem_append.1 h
    · exact (n.indices_sublist h).trans (List.sublist_append_left _ _)
    · exact (indicesOf_sublist rest h).trans (List.sublist_append_right _ _)

end

namespace ScopeState

/-- Indices that rise give the order in a scope. -/
theorem ordered_of_rising {v : ScopeState} {next : Nat}
    (hasElse : v.elseBody.isSome ↔ v.header.kind = .ifElse)
    (ifElse : v.elseAt.isSome → v.header.kind = .ifElse)
    (untouched : v.elseAt = none → v.others = []) (h : v.indices.Pairwise (· < ·))
    (hnext : ∀ i ∈ v.inside, i < v.closeAt.getD next) : v.Ordered next := by
  rw [indices, List.cons_append, List.pairwise_cons, List.pairwise_append] at h
  obtain ⟨hopen, hinside, _⟩ := h
  have hparts := hinside
  rw [inside, List.pairwise_append, List.pairwise_append] at hparts
  obtain ⟨⟨hbody, _, hbefore⟩, hother, hafter⟩ := hparts
  refine ⟨hasElse, ifElse, fun i hi => ⟨hopen i (List.mem_append_left _ hi), hnext i hi⟩, hbody, hother,
    fun e he i hi => hbefore i hi e (Option.mem_toList.2 he), fun e he i hi => ?_, untouched⟩
  exact hafter e (List.mem_append_right _ (Option.mem_toList.2 he)) i hi

theorem Whole.ordered {v : ScopeState} (hv : v.Whole) (h : v.indices.Pairwise (· < ·))
    (next : Nat) : v.Ordered next := by
  refine ordered_of_rising hv.hasElse hv.ifElse hv.untouched h fun i hi => ?_
  obtain ⟨c, hclose⟩ := Option.isSome_iff_exists.1 hv.closed
  rw [indices, hclose, List.pairwise_append] at h
  rw [hclose]
  exact h.2.2 i (List.mem_cons_of_mem _ hi) c (by simp)

end ScopeState

namespace OpenScope

theorem indices_state (o : OpenScope) : o.state.indices = o.indices :=
  List.append_nil _

/-- An open scope is in order below the index of the next call. -/
theorem Whole.ordered {o : OpenScope} (h : o.Whole) {next : Nat}
    (hrising : o.indices.Pairwise (· < ·)) (hmade : ∀ i ∈ o.indices, i < next) :
    o.state.Ordered next := by
  rw [← o.indices_state] at hrising
  refine ScopeState.ordered_of_rising h.hasElse (fun hsome => h.ifElse ?_) (fun hnone => ?_) hrising
    fun i hi => hmade i (List.mem_cons_of_mem _ hi)
  · exact h.entered.trans hsome
  · exact h.untouched (h.elseAt_eq_none.1 hnone)

theorem inside_sublist_of_stored {o : OpenScope} {v : ScopeState} (h : v ∈ o.stored) :
    v.indices.Sublist o.state.inside := by
  obtain h | h := List.mem_append.1 h
  · refine (indicesOf_sublist o.body h).trans ?_
    exact (List.sublist_append_left _ _).trans (List.sublist_append_left _ _)
  · exact (indicesOf_sublist o.others h).trans (List.sublist_append_right _ _)

end OpenScope

theorem indicesOfScopes_sublist {scopes : List OpenScope} {o : OpenScope} (h : o ∈ scopes) :
    o.indices.Sublist (indicesOfScopes scopes) := by
  induction scopes with
  | nil => cases h
  | cons first rest ih =>
    rw [indicesOfScopes]
    obtain rfl | h := List.mem_cons.1 h
    · exact List.sublist_append_right _ _
    · exact (ih h).trans (List.sublist_append_left _ _)

theorem FramesFit.length_eq {past : List (SessionCall × Bool)} {branches : List Nat}
    {live : List Frame} (h : FramesFit past branches live) : live.length = branches.length + 1 := by
  induction branches generalizing live with
  | nil =>
    obtain ⟨frame, rfl, _⟩ := h
    rfl
  | cons b branches ih =>
    obtain ⟨frame, outer, rfl, _, houter⟩ := h
    rw [List.length_cons, ih houter, List.length_cons]

namespace Session

/-- Indices rise through the root and the open scopes, the outermost first. -/
theorem run_rising (calls : List SessionCall) :
    (Session.empty.run calls).indices.Pairwise (· < ·) ∧
      ∀ i ∈ (Session.empty.run calls).indices, i < (Session.empty.run calls).next := by
  have hcalls := Whole.empty.run_calls calls
  have hnone : Session.empty.calls = [] := rfl
  rw [hnone, List.nil_append] at hcalls
  rw [(Whole.empty.run calls).indices_eq, hcalls]
  refine ⟨treeCalls_rising _ _, fun i hi => ?_⟩
  have hbounds := treeCalls_bounds hi
  rw [length_trace] at hbounds
  rw [run_next]
  exact hbounds.2

theorem run_frames (calls : List SessionCall) :
    (Session.empty.run calls).declarations.depth = (Session.empty.run calls).opened.length := by
  have htracks := Tracks.empty.run calls
  have hlive := htracks.frames.length_eq
  rw [Declarations.live, List.length_cons] at hlive
  rw [Declarations.depth, htracks.depth]
  omega

theorem indices_sublist {s : Session} {o : OpenScope} (h : o ∈ s.opened) :
    o.indices.Sublist s.indices :=
  (indicesOfScopes_sublist h).trans (List.sublist_append_right _ _)

theorem stored_cases {s : Session} {v : ScopeState} (h : v ∈ s.stored) :
    v ∈ scopesOf s.root ∨ ∃ o ∈ s.opened, v ∈ o.stored :=
  (List.mem_append.1 h).imp id List.mem_flatMap.1

theorem Whole.stored {s : Session} (h : s.Whole) : ∀ v ∈ s.stored, v.Whole := by
  intro v hv
  obtain hv | ⟨o, ho, hv⟩ := stored_cases hv
  · exact h.root.scopes v hv
  · have hwhole := h.opened o ho
    exact (List.mem_append.1 hv).elim (hwhole.body.scopes v) (hwhole.others.scopes v)

theorem indices_sublist_of_stored {s : Session} {v : ScopeState} (h : v ∈ s.stored) :
    v.indices.Sublist s.indices := by
  obtain h | ⟨o, ho, h⟩ := stored_cases h
  · exact (indicesOf_sublist s.root h).trans (List.sublist_append_left _ _)
  · exact ((OpenScope.inside_sublist_of_stored h).cons _).trans (indices_sublist ho)

theorem run_coherent (calls : List SessionCall) : (Session.empty.run calls).Coherent := by
  have hwhole := Whole.empty.run calls
  obtain ⟨hrising, hmade⟩ := run_rising calls
  refine ⟨run_frames calls, fun v hv => (hwhole.stored v hv).closed, fun v hv => ?_,
    fun o ho => (hwhole.opened o ho).entered, hrising, hrising.imp Nat.ne_of_lt, hmade⟩
  obtain hv | hv := List.mem_append.1 hv
  · exact (hwhole.stored v hv).ordered (hrising.sublist (indices_sublist_of_stored hv)) _
  · obtain ⟨o, ho, rfl⟩ := List.mem_map.1 hv
    have hsub := indices_sublist ho
    exact (hwhole.opened o ho).ordered (hrising.sublist hsub) fun i hi => hmade i (hsub.mem hi)

end Session
end BlockTemplate
