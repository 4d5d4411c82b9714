import BlockTemplate.Proofs.Outcome
import BlockTemplate.Script.Replay

/-! The places in an expression, and what constructors of values blame: the call or a part of it. -/
namespace BlockTemplate.Script

mutual

/-- The places of an expression and of all that it is made of. -/
def Expr.places : Expr → List Span
  | .text _ span | .number _ span | .ident _ span => [span]
  | .list items span => span :: placesOf items
  | .dict entries span => span :: entryPlaces entries
  | .call head args span => span :: head.span :: argPlaces args

def placesOf : List Expr → List Span
  | [] => []
  | e :: rest => e.places ++ placesOf rest

def entryPlaces : List (Name × Expr) → List Span
  | [] => []
  | (key, e) :: rest => key.span :: (e.places ++ entryPlaces rest)

def argPlaces : List (Option Name × Expr) → List Span
  | [] => []
  | (none, e) :: rest => e.places ++ argPlaces rest
  | (some key, e) :: rest => key.span :: (e.places ++ argPlaces rest)

end

mutual

/-- The places of the `var` calls in an expression. -/
def Expr.varCalls : Expr → List Span
  | .text _ _ | .number _ _ | .ident _ _ => []
  | .list items _ => varCallsOf items
  | .dict entries _ => entryVarCalls entries
  | .call head args span => (if head.item = "var" then [span] else []) ++ argVarCalls args

def varCallsOf : List Expr → List Span
  | [] => []
  | e :: rest => e.varCalls ++ varCallsOf rest

def entryVarCalls : List (Name × Expr) → List Span
  | [] => []
  | (_, e) :: rest => e.varCalls ++ entryVarCalls rest

def argVarCalls : List (Option Name × Expr) → List Span
  | [] => []
  | (_, e) :: rest => e.varCalls ++ argVarCalls rest

end

mutual

theorem Expr.varCalls_subset (e : Expr) : e.varCalls ⊆ e.places := by
  match e with
  | .text _ _ | .number _ _ | .ident _ _ => simp [Expr.varCalls]
  | .list items span => exact List.subset_cons_of_subset _ (varCallsOf_subset items)
  | .dict entries span => exact List.subset_cons_of_subset _ (entryVarCalls_subset entries)
  | .call head args span =>
    have hargs := argVarCalls_subset args
    intro s hs
    simp only [Expr.varCalls, List.mem_append] at hs
    obtain hs | hs := hs
    · split at hs
      · exact List.mem_cons.2 (.inl (List.mem_singleton.1 hs))
      · cases hs
    · exact List.mem_cons_of_mem _ (List.mem_cons_of_mem _ (hargs hs))

theorem varCallsOf_subset (items : List Expr) : varCallsOf items ⊆ placesOf items := by
  match items with
  | [] => simp [varCallsOf]
  | e :: rest =>
    exact List.append_subset.2 ⟨List.subset_append_of_subset_left _ e.varCalls_subset,
      List.subset_append_of_subset_right _ (varCallsOf_subset rest)⟩

theorem entryVarCalls_subset (entries : List (Name × Expr)) :
    entryVarCalls entries ⊆ entryPlaces entries := by
  match entries with
  | [] => simp [entryVarCalls]
  | (key, e) :: rest =>
    refine List.subset_cons_of_subset _ (List.append_subset.2 ⟨?_, ?_⟩)
    · exact List.subset_append_of_subset_left _ e.varCalls_subset
    · exact List.subset_append_of_subset_right _ (entryVarCalls_subset rest)

theorem argVarCalls_subset (args : List (Option Name × Expr)) :
    argVarCalls args ⊆ argPlaces args := by
  match args with
  | [] => simp [argVarCalls]
  | (none, e) :: rest =>
    exact List.append_subset.2 ⟨List.subset_append_of_subset_left _ e.varCalls_subset,
      List.subset_append_of_subset_right _ (argVarCalls_subset rest)⟩
  | (some key, e) :: rest =>
    refine List.subset_cons_of_subset _ (List.append_subset.2 ⟨?_, ?_⟩)
    · exact List.subset_append_of_subset_left _ e.varCalls_subset
    · exact List.subset_append_of_subset_right _ (argVarCalls_subset rest)

end

/-- A failure of evaluating something before call number `next`. -/
inductive Failure.Blames (next : Nat) (places varCalls : List Span) : Failure → Prop
  | meaningless (fault : MeaningFault) {span : Span} (h : span ∈ places) :
    Blames next places varCalls (.meaningless fault span)
  | unknown (name : String) {span : Span} (h : span ∈ varCalls) :
    Blames next places varCalls (.compile (.unknownVariable next name) (some span))

theorem Failure.Blames.mono {next : Nat} {places varCalls more moreCalls : List Span} {f : Failure}
    (h : f.Blames next places varCalls) (hplaces : places ⊆ more) (hcalls : varCalls ⊆ moreCalls) :
    f.Blames next more moreCalls := by
  cases h with
  | meaningless fault h => exact .meaningless fault (hplaces h)
  | unknown name h => exact .unknown name (hcalls h)

/-- Blames what is written at one of the places, whatever is returned. -/
abbrev Faithful {α : Type} (next : Nat) (places : List Span) (x : Except Failure α) : Prop :=
  Meets (fun _ => True) (Failure.Blames next places []) x

namespace Expr
variable (next : Nat) (e : Expr)

theorem span_mem_places : e.span ∈ e.places := by
  cases e <;> simp [Expr.span, Expr.places]

theorem toNumber_faithful : Faithful next e.places e.toNumber := by
  cases e with
  | number x span => trivial
  | _ => exact .meaningless _ (span_mem_places _)

theorem toWhole_faithful : Faithful next e.places e.toWhole := by
  refine (toNumber_faithful next e).bind fun x _ => ?_
  split
  · split
    · exact .meaningless _ e.span_mem_places
    · trivial
  · exact .meaningless _ e.span_mem_places

theorem toText_faithful : Faithful next e.places e.toText := by
  cases e with
  | text s span => trivial
  | _ => exact .meaningless _ (span_mem_places _)

theorem toName_faithful : Faithful next e.places e.toName := by
  cases e with
  | text s span => trivial
  | ident s span => trivial
  | _ => exact .meaningless _ (span_mem_places _)

theorem toFlag_faithful : Faithful next e.places e.toFlag := by
  unfold toFlag
  split
  · trivial
  · trivial
  · exact .meaningless _ e.span_mem_places

theorem toTarget_faithful : Faithful next e.places e.toTarget := by
  refine (toName_faithful next e).bind fun name _ => ?_
  split
  · trivial
  · exact .meaningless _ e.span_mem_places

end Expr

theorem places_subset {e : Expr} {items : List Expr} (h : e ∈ items) :
    e.places ⊆ placesOf items := by
  induction h with
  | head => exact List.subset_append_left _ _
  | tail _ _ ih => exact List.subset_append_of_subset_right _ ih

theorem entryPlaces_subset {key : Name} {e : Expr} {entries : List (Name × Expr)}
    (h : (key, e) ∈ entries) : key.span :: e.places ⊆ entryPlaces entries := by
  induction entries with
  | nil => cases h
  | cons entry rest ih =>
    cases h with
    | head => exact List.cons_subset_cons _ (List.subset_append_left _ _)
    | tail _ h =>
      exact List.subset_cons_of_subset _ (List.subset_append_of_subset_right _ (ih h))

section Faithful
variable {α β : Type} {next : Nat} {places more : List Span}

theorem Faithful.wider {x : Except Failure α} (h : Faithful next places x) (hsub : places ⊆ more) :
    Faithful next more x :=
  h.mono (fun _ => id) fun _ hf => hf.mono hsub (List.Subset.refl _)

theorem Faithful.mapM {g : β → Except Failure α} {xs : List β}
    (h : ∀ x ∈ xs, Faithful next places (g x)) : Faithful next places (xs.mapM g) := by
  induction xs with
  | nil => trivial
  | cons x xs ih =>
    rw [List.mapM_cons]
    refine (h x (by simp)).bind fun a _ => ?_
    exact (ih fun y hy => h y (by simp [hy])).bind fun as _ => trivial

end Faithful

theorem Expr.toTexts_faithful (next : Nat) (e : Expr) : Faithful next e.places e.toTexts := by
  unfold toTexts
  split
  · next items span =>
    refine Faithful.mapM fun e he => (e.toText_faithful next).wider ?_
    exact List.subset_cons_of_subset _ (places_subset he)
  · exact (e.toText_faithful next).bind fun s _ => trivial

theorem Expr.toEnchantments_faithful (next : Nat) (e : Expr) :
    Faithful next e.places e.toEnchantments := by
  unfold toEnchantments
  split
  · next entries span =>
    refine Faithful.mapM fun entry hentry => ?_
    refine Meets.bind ((entry.2.toWhole_faithful next).wider ?_) fun n _ => trivial
    have hsub := entryPlaces_subset hentry
    exact List.subset_cons_of_subset _ fun p hp => hsub (List.mem_cons_of_mem _ hp)
  · exact .meaningless _ e.span_mem_places

namespace Constructor

/-- The places of a call and of its arguments. -/
def places (c : Constructor) : List Span :=
  c.span :: c.head.span :: (placesOf c.positional ++ entryPlaces c.named)

/-- Blames the call or what is in it, or returns a value without variables. -/
abbrev Leaf (next : Nat) (c : Constructor) (x : Except Failure Value) : Prop :=
  Meets (fun v => v.varRefs = []) (Failure.Blames next c.places []) x

section Steps
variable {α : Type} {next : Nat} (c : Constructor)

theorem wrongCount_leaf (wanted : Nat) : Leaf next c (c.wrongCount wanted) :=
  .meaningless _ List.mem_cons_self

theorem checkNames_faithful (allowed : List String) (named : List (Name × Expr))
    (seen : List String) : Faithful next (entryPlaces named) (c.checkNames allowed seen named) := by
  induction named generalizing seen with
  | nil => trivial
  | cons entry rest ih =>
    obtain ⟨key, e⟩ := entry
    unfold checkNames
    split
    · exact .meaningless _ List.mem_cons_self
    · split
      · exact .meaningless _ List.mem_cons_self
      · refine (ih _).wider ?_
        exact List.subset_cons_of_subset _ (List.subset_append_right _ _)

theorem positional_subset {e : Expr} (h : e ∈ c.positional) : e.places ⊆ c.places :=
  List.subset_cons_of_subset _ (List.subset_cons_of_subset _
    (List.subset_append_of_subset_left _ (places_subset h)))

theorem named_subset : entryPlaces c.named ⊆ c.places :=
  List.subset_cons_of_subset _ (List.subset_cons_of_subset _ (List.subset_append_right _ _))

theorem checkNamed_faithful (allowed : List String) :
    Faithful next c.places (c.checkNamed allowed) :=
  (c.checkNames_faithful allowed c.named []).wider c.named_subset

theorem named?_faithful (key : String) {read : Expr → Except Failure α}
    (h : ∀ e, Faithful next e.places (read e)) : Faithful next c.places (c.named? key read) := by
  unfold named?
  split
  · next name e hfound =>
    have hsub : e.places ⊆ c.places := fun p hp =>
      c.named_subset (entryPlaces_subset (List.mem_of_find?_eq_some hfound)
        (List.mem_cons_of_mem _ hp))
    have hread := (h e).wider hsub
    cases hvalue : read e with
    | ok a => trivial
    | error f =>
      rw [hvalue] at hread
      exact hread
  · trivial

end Steps

section Leaves
variable (next : Nat) (c : Constructor)

theorem location_leaf : Leaf next c c.location := by
  unfold location
  split
  · next x y z hargs =>
    have hsub : ∀ e ∈ [x, y, z], e.places ⊆ c.places := fun e he =>
      c.positional_subset (by rw [hargs]; exact he)
    refine (c.checkNamed_faithful _).bind fun _ _ => ?_
    refine ((x.toNumber_faithful next).wider (hsub x (by simp))).bind fun _ _ => ?_
    refine ((y.toNumber_faithful next).wider (hsub y (by simp))).bind fun _ _ => ?_
    refine ((z.toNumber_faithful next).wider (hsub z (by simp))).bind fun _ _ => ?_
    refine (c.named?_faithful _ fun e => e.toNumber_faithful next).bind fun _ _ => ?_
    refine (c.named?_faithful _ fun e => e.toNumber_faithful next).bind fun _ _ => ?_
    refine (c.named?_faithful _ fun e => e.toText_faithful next).bind fun _ _ => ?_
    refine (c.named?_faithful _ fun e => e.toFlag_faithful next).bind fun _ _ => ?_
    rfl
  · exact c.wrongCount_leaf 3

theorem vector_leaf : Leaf next c c.vector := by
  unfold vector
  split
  · next x y z hargs =>
    have hsub : ∀ e ∈ [x, y, z], e.places ⊆ c.places := fun e he =>
      c.positional_subset (by rw [hargs]; exact he)
    refine (c.checkNamed_faithful _).bind fun _ _ => ?_
    refine ((x.toNumber_faithful next).wider (hsub x (by simp))).bind fun _ _ => ?_
    refine ((y.toNumber_faithful next).wider (hsub y (by simp))).bind fun _ _ => ?_
    refine ((z.toNumber_faithful next).wider (hsub z (by simp))).bind fun _ _ => ?_
    rfl
  · exact c.wrongCount_leaf 3

theorem item_leaf : Leaf next c c.item := by
  unfold item
  split
  · next e hargs =>
    have hsub : e.places ⊆ c.places := c.positional_subset (by simp [hargs])
    refine (c.checkNamed_faithful _).bind fun _ _ => ?_
    refine ((e.toText_faithful next).wider hsub).bind fun _ _ => ?_
    refine (c.named?_faithful _ fun e => e.toWhole_faithful next).bind fun _ _ => ?_
    refine (c.named?_faithful _ fun e => e.toText_faithful next).bind fun _ _ => ?_
    refine (c.named?_faithful _ fun e => e.toTexts_faithful next).bind fun _ _ => ?_
    refine (c.named?_faithful _ fun e => e.toWhole_faithful next).bind fun _ _ => ?_
    refine (c.named?_faithful _ fun e => e.toFlag_faithful next).bind fun _ _ => ?_
    refine (c.named?_faithful _ fun e => e.toEnchantments_faithful next).bind fun _ _ => ?_
    refine (c.named?_faithful _ fun e => e.toText_faithful next).bind fun _ _ => ?_
    rfl
  · exact c.wrongCount_leaf 1

theorem sound_leaf : Leaf next c c.sound := by
  unfold sound
  split
  · next e hargs =>
    have hsub : e.places ⊆ c.places := c.positional_subset (by simp [hargs])
    refine (c.checkNamed_faithful _).bind fun _ _ => ?_
    refine ((e.toText_faithful next).wider hsub).bind fun _ _ => ?_
    refine (c.named?_faithful _ fun e => e.toNumber_faithful next).bind fun _ _ => ?_
    refine (c.named?_faithful _ fun e => e.toNumber_faithful next).bind fun _ _ => ?_
    rfl
  · exact c.wrongCount_leaf 1

theorem potion_leaf : Leaf next c c.potion := by
  unfold potion
  split
  · next e hargs =>
    have hsub : e.places ⊆ c.places := c.positional_subset (by simp [hargs])
    refine (c.checkNamed_faithful _).bind fun _ _ => ?_
    refine ((e.toText_faithful next).wider hsub).bind fun _ _ => ?_
    refine (c.named?_faithful _ fun e => e.toWhole_faithful next).bind fun _ _ => ?_
    refine (c.named?_faithful _ fun e => e.toWhole_faithful next).bind fun _ _ => ?_
    rfl
  · exact c.wrongCount_leaf 1

theorem particle_leaf : Leaf next c c.particle := by
  unfold particle
  split
  · next e hargs =>
    have hsub : e.places ⊆ c.places := c.positional_subset (by simp [hargs])
    refine (c.checkNamed_faithful _).bind fun _ _ => ?_
    refine ((e.toText_faithful next).wider hsub).bind fun _ _ => ?_
    rfl
  · exact c.wrongCount_leaf 1

theorem gameValue_leaf : Leaf next c c.gameValue := by
  unfold gameValue
  split
  · next e hargs =>
    have hsub : e.places ⊆ c.places := c.positional_subset (by simp [hargs])
    refine (c.checkNamed_faithful _).bind fun _ _ => ?_
    refine ((e.toText_faithful next).wider hsub).bind fun _ _ => ?_
    refine (c.named?_faithful _ fun e => e.toTarget_faithful next).bind fun _ _ => ?_
    rfl
  · exact c.wrongCount_leaf 1

end Leaves

end Constructor

end BlockTemplate.Script
