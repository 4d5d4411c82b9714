import BlockTemplate.Proofs.Session.Coherence

/-! Which else branches were entered: a scope has an else index exactly if an accepted call made in
it switched to its else branch. With the order of the indices this is what holds of every state. -/
namespace BlockTemplate

/-- Where the scope opens and where its else branch begins. -/
def ScopeState.branching (v : ScopeState) : Nat × Option Nat := (v.openAt, v.elseAt)

theorem scopesOf_append (xs ys : List Node) : scopesOf (xs ++ ys) = scopesOf xs ++ scopesOf ys := by
  induction xs with
  | nil => rfl
  | cons n xs ih => simp [scopesOf, ih]

theorem scopesOf_singleton (n : Node) : scopesOf [n] = n.scopes := by simp [scopesOf]

namespace OpenScope

theorem branching_push (o : OpenScope) (n : Node) :
    (o.push n).state.branching = o.state.branching := by
  obtain ⟨_, hs⟩ | ⟨_, hs⟩ := o.push_cases n <;> rw [hs] <;> rfl

theorem mem_stored_push {o : OpenScope} {n : Node} {b : Nat × Option Nat} :
    b ∈ (o.push n).stored.map (·.branching) ↔
      b ∈ o.stored.map (·.branching) ∨ b ∈ n.scopes.map (·.branching) := by
  obtain ⟨_, hs⟩ | ⟨_, hs⟩ := o.push_cases n <;> rw [hs] <;>
    simp only [stored, others, Option.getD_some, scopesOf_append, scopesOf_singleton,
      List.map_append, List.mem_append, or_assoc]
  rw [or_comm (a := b ∈ n.scopes.map _)]

end OpenScope

namespace Session

/-- Call number `j` enters the else branch of the scope that call number `i` opened. -/
def EntersElse (calls : List SessionCall) (i j : Nat) : Prop :=
  calls[j]? = some .elseBranch ∧ (Session.empty.run (calls.take j)).accepts .elseBranch = true ∧
    ∃ top rest, (Session.empty.run (calls.take j)).opened = top :: rest ∧ top.openAt = i

theorem entersElse_snoc (past : List SessionCall) (c : SessionCall) (i j : Nat) :
    EntersElse (past ++ [c]) i j ↔ EntersElse past i j ∨
      (j = past.length ∧ c = .elseBranch ∧ (Session.empty.run past).accepts .elseBranch = true ∧
        ∃ top rest, (Session.empty.run past).opened = top :: rest ∧ top.openAt = i) := by
  by_cases hj : j < past.length
  · have htake : (past ++ [c]).take j = past.take j := List.take_append_of_le_length (by omega)
    have hlast : j ≠ past.length := by omega
    simp [EntersElse, htake, List.getElem?_append_left hj, hlast]
  · have hnone : past[j]? = none := List.getElem?_eq_none (by omega)
    by_cases hlast : j = past.length
    · simp [EntersElse, hlast]
    · have hbeyond : (past ++ [c])[j]? = none := by
        rw [List.getElem?_eq_none_iff, List.length_append, List.length_singleton]
        omega
      simp [EntersElse, hnone, hbeyond, hlast]

/-- Only a scope that was open before the call can be entered by it. -/
theorem EntersElse.lt {past : List SessionCall} {i j : Nat} (h : EntersElse past i j) :
    i < past.length := by
  obtain ⟨hget, _, top, rest, hopened, rfl⟩ := h
  have hj : j < past.length := (List.getElem?_eq_some_iff.1 hget).1
  have hmem : top.openAt ∈ (Session.empty.run (past.take j)).indices :=
    (indices_sublist (hopened ▸ List.mem_cons_self)).mem List.mem_cons_self
  have hmade := (run_rising (past.take j)).2 _ hmem
  rw [run_empty_next, List.length_take] at hmade
  omega

/-- Where the scopes open and where their else branches begin. -/
def branchings (s : Session) : List (Nat × Option Nat) := s.scopes.map (·.branching)

theorem mem_branchings_push {s : Session} {n : Node} {b : Nat × Option Nat} :
    b ∈ (s.push n).branchings ↔ b ∈ s.branchings ∨ b ∈ n.scopes.map (·.branching) := by
  cases hs : s.opened with
  | nil => simp [branchings, scopes, stored, push, hs, scopesOf_append, scopesOf_singleton]
  | cons top rest =>
    simp only [branchings, scopes, stored, push, hs, List.flatMap_cons, List.map_append,
      List.map_cons, OpenScope.branching_push, List.mem_append, List.mem_cons,
      OpenScope.mem_stored_push]
    grind

theorem mem_branchings_cons {s : Session} (t : Session) {top : OpenScope} {rest : List OpenScope}
    (hs : s.opened = top :: rest) (hroot : t.root = s.root) (ht : t.opened = rest)
    {b : Nat × Option Nat} : b ∈ s.branchings ↔
      b ∈ t.branchings ∨ b = top.state.branching ∨ b ∈ top.stored.map (·.branching) := by
  simp only [branchings, scopes, stored, hs, hroot, ht, List.flatMap_cons, List.map_append,
    List.map_cons, List.mem_append, List.mem_cons]
  grind

theorem mem_indices_of_branchings {s : Session} {b : Nat × Option Nat} (h : b ∈ s.branchings) :
    b.1 ∈ s.indices := by
  obtain ⟨v, hv, rfl⟩ := List.mem_map.1 h
  obtain hv | hv := List.mem_append.1 hv
  · exact (indices_sublist_of_stored hv).mem List.mem_cons_self
  · obtain ⟨o, ho, rfl⟩ := List.mem_map.1 hv
    exact (indices_sublist ho).mem List.mem_cons_self

/-- The innermost open scope is told apart from all others by where it opens. -/
theorem branching_ne {s : Session} (t : Session) {top : OpenScope} {rest : List OpenScope}
    (hs : s.opened = top :: rest) (hroot : t.root = s.root) (ht : t.opened = rest)
    (h : s.indices.Pairwise (· < ·)) {b : Nat × Option Nat}
    (hb : b ∈ t.branchings ∨ b ∈ top.stored.map (·.branching)) : b.1 ≠ top.openAt := by
  have hsplit : s.indices = t.indices ++ top.indices := by
    rw [indices, indices, hs, hroot, ht, indicesOfScopes, List.append_assoc]
  rw [hsplit, List.pairwise_append, OpenScope.indices, List.pairwise_cons] at h
  obtain hb | hb := hb
  · exact Nat.ne_of_lt (h.2.2 _ (mem_indices_of_branchings hb) _ List.mem_cons_self)
  · obtain ⟨v, hv, rfl⟩ := List.mem_map.1 hb
    have hinside := (OpenScope.inside_sublist_of_stored hv).mem List.mem_cons_self
    exact Nat.ne_of_gt (h.2.1.1 _ hinside)

/-- The else indices are those of the calls that entered an else branch. -/
def Entered (past : List SessionCall) (s : Session) : Prop :=
  ∀ b ∈ s.branchings, ∀ j, b.2 = some j ↔ EntersElse past b.1 j

/-- A call that enters no else branch, and at most opens a scope. -/
theorem Entered.keep {past : List SessionCall} {c : SessionCall} {t : Session}
    (h : Entered past (Session.empty.run past))
    (hc : c = .elseBranch → (Session.empty.run past).accepts .elseBranch = false)
    (ht : ∀ b ∈ t.branchings, b ∈ (Session.empty.run past).branchings ∨ b = (past.length, none)) :
    Entered (past ++ [c]) t := by
  intro b hb j
  have hsame : EntersElse (past ++ [c]) b.1 j ↔ EntersElse past b.1 j := by
    rw [entersElse_snoc]
    refine or_iff_left ?_
    rintro ⟨_, helse, hok, _⟩
    simp [hc helse] at hok
  rw [hsame]
  obtain hb | rfl := ht b hb
  · exact h b hb j
  · refine iff_of_false (by simp) fun henters => ?_
    exact absurd henters.lt (Nat.lt_irrefl _)

/-- The scope that is entered gets the index of the call; it had none before. -/
theorem Entered.enter {past : List SessionCall} {top : OpenScope} {rest : List OpenScope}
    {t : Session} (h : Entered past (Session.empty.run past))
    (hs : (Session.empty.run past).opened = top :: rest) (helse : top.elseAt = none)
    (hok : (Session.empty.run past).accepts .elseBranch = true)
    (hroot : t.root = (Session.empty.run past).root)
    (ht : t.opened = top.switch past.length :: rest) :
    Entered (past ++ [.elseBranch]) t := by
  intro b hb j
  let u : Session := { t with opened := rest }
  have hmem : ∀ {b}, b ∈ (Session.empty.run past).branchings ↔
      b ∈ u.branchings ∨ b = top.state.branching ∨ b ∈ top.stored.map (·.branching) :=
    mem_branchings_cons u hs hroot rfl
  have hother : b ∈ u.branchings ∨ b ∈ top.stored.map (·.branching) →
      (b.2 = some j ↔ EntersElse (past ++ [.elseBranch]) b.1 j) := by
    intro hb
    have hne : b.1 ≠ top.openAt := branching_ne u hs hroot rfl (run_rising past).1 hb
    rw [entersElse_snoc, h b (hmem.2 (hb.imp id .inr)) j]
    refine (or_iff_left ?_).symm
    rintro ⟨_, _, _, top', rest', hs', hopen⟩
    obtain ⟨rfl, _⟩ := List.cons.inj (hs.symm.trans hs')
    exact hne hopen.symm
  obtain hb | rfl | hb := (mem_branchings_cons u ht rfl rfl).1 hb
  · exact hother (.inl hb)
  · have hbefore := h top.state.branching (hmem.2 (.inr (.inl rfl))) j
    have hnot : ¬ EntersElse past top.openAt j := by
      intro henters
      have hsome : top.elseAt = some j := hbefore.2 henters
      simp [helse] at hsome
    rw [entersElse_snoc]
    constructor
    · intro hj
      exact .inr ⟨(Option.some.inj hj).symm, rfl, hok, top, rest, hs, rfl⟩
    · rintro (henters | ⟨rfl, _⟩)
      · exact absurd henters hnot
      · rfl
  · exact hother (.inr hb)

theorem branching_of_toNode {o : OpenScope} {closeAt : Option Nat} {b : Nat × Option Nat}
    (h : b ∈ (o.toNode closeAt).scopes.map (·.branching)) :
    b = o.state.branching ∨ b ∈ o.stored.map (·.branching) := by
  rw [OpenScope.toNode] at h
  cases hbody : o.elseBody with
  | none =>
    rw [hbody, Node.scopes, List.map_cons, List.mem_cons] at h
    refine h.imp id fun h => ?_
    rw [OpenScope.stored, List.map_append]
    exact List.mem_append_left _ h
  | some nodes =>
    rw [hbody, Node.scopes, List.map_cons, List.mem_cons] at h
    refine h.imp id fun h => ?_
    rwa [OpenScope.stored, OpenScope.others, hbody]

/-- One call, for each kind of call. -/
theorem Entered.after {past : List SessionCall} (h : Entered past (Session.empty.run past))
    (c : SessionCall) : Entered (past ++ [c]) ((Session.empty.run past).after c) := by
  have hnext := run_empty_next past
  cases c with
  | declare name scope kind => exact h.keep (by simp) fun b hb => .inl hb
  | add a =>
    refine h.keep (by simp) fun b hb => .inl ?_
    obtain ⟨_, hs⟩ | ⟨_, hs⟩ := (Session.empty.run past).add_cases a <;> rw [hs] at hb
    · obtain hb | hb := mem_branchings_push.1 hb
      · exact hb
      · simp [Node.scopes] at hb
    · exact hb
  | openScope header =>
    refine h.keep (by simp) fun b hb => ?_
    obtain ⟨_, hs⟩ | ⟨_, hs⟩ := (Session.empty.run past).openScope_cases header <;> rw [hs] at hb
    · have hcases := (mem_branchings_cons (Session.empty.run past) (by rfl) (by rfl) rfl).1 hb
      obtain hb | rfl | hb := hcases
      · exact .inl hb
      · exact .inr (congrArg (·, none) hnext)
      · simp [OpenScope.stored, scopesOf] at hb
    · exact .inl hb
  | elseBranch =>
    obtain ⟨top, rest, hopened, _, hin, hok, hs⟩ | ⟨hok, hs⟩ :=
      (Session.empty.run past).elseBranch_cases <;> rw [hs]
    · have htop : top.Branched := Branched.empty.run past top (hopened ▸ List.mem_cons_self)
      rw [hnext]
      exact h.enter hopened (htop.elseAt_eq_none.2 hin) hok rfl rfl
    · exact h.keep (fun _ => hok) fun b hb => .inl hb
  | close =>
    refine h.keep (by simp) fun b hb => .inl ?_
    obtain ⟨top, rest, hopened, _, hs⟩ | ⟨_, _, hs⟩ := (Session.empty.run past).close_cases <;>
      rw [hs] at hb
    · let u : Session := { Session.empty.run past with opened := rest }
      refine (mem_branchings_cons u hopened rfl rfl).2 ?_
      exact (mem_branchings_push.1 hb).imp id branching_of_toNode
    · exact hb

theorem Entered.run (past calls : List SessionCall) (h : Entered past (Session.empty.run past)) :
    Entered (past ++ calls) (Session.empty.run (past ++ calls)) := by
  induction calls generalizing past with
  | nil => simpa using h
  | cons c rest ih =>
    have hafter := h.after c
    have hrun : (Session.empty.run past).after c = Session.empty.run (past ++ [c]) := by
      rw [run_append]
      rfl
    rw [hrun] at hafter
    simpa using ih (past ++ [c]) hafter

/-- Whatever was called before, accepted or refused, a session is coherent, its else indices are
those of the calls that entered an else branch, and the next call takes one index and, if it is
refused, nothing else. -/
theorem run_invariant (calls : List SessionCall) :
    (Session.empty.run calls).Coherent ∧
    (∀ v ∈ (Session.empty.run calls).scopes, ∀ j,
      v.elseAt = some j ↔ EntersElse calls v.openAt j) ∧
    ∀ c, ((Session.empty.run calls).after c).next = (Session.empty.run calls).next + 1 ∧
      ((Session.empty.run calls).accepts c = false → (Session.empty.run calls).after c =
        { Session.empty.run calls with next := (Session.empty.run calls).next + 1 }) := by
  have hentered : Entered calls (Session.empty.run calls) :=
    Entered.run [] calls (by simp [Entered, branchings, scopes, stored, Session.run, Session.empty,
      scopesOf])
  refine ⟨run_coherent calls, fun v hv j => ?_, fun c => ⟨after_next _ c, after_refused _⟩⟩
  exact hentered v.branching (List.mem_map_of_mem hv) j

/-- Two if-else scopes are open, and the inner one is in its else branch, which is not entered a
second time. -/
theorem run_invariant_nestedCalls :
    (∃ v ∈ (Session.empty.run (nestedCalls.take 9)).scopes, v.branching = (3, some 5) ∧
      v.Ordered 9 ∧ EntersElse (nestedCalls.take 9) 3 5) ∧
    (Session.empty.run (nestedCalls.take 9)).after .elseBranch =
      { Session.empty.run (nestedCalls.take 9) with next := 10 } := by
  obtain ⟨hcoherent, hentered, hcalls⟩ := run_invariant (nestedCalls.take 9)
  refine ⟨?_, (hcalls .elseBranch).2 rfl⟩
  have hscope : ∃ v ∈ (Session.empty.run (nestedCalls.take 9)).scopes,
      v.branching = (3, some 5) := ⟨_, List.mem_cons_self, rfl⟩
  obtain ⟨v, hv, hbranching⟩ := hscope
  obtain ⟨hopen, helse⟩ := Prod.mk.inj hbranching
  refine ⟨v, hv, hbranching, hcoherent.ordered v hv, ?_⟩
  rw [← hopen]
  exact (hentered v hv 5).1 helse

end Session
end BlockTemplate
