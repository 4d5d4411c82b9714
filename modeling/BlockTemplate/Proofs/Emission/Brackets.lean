import BlockTemplate.Block
import BlockTemplate.Record.Document

/-! The grammar of the records of a code line. A record list has at most one derivation, and in a
list that has one every closing bracket matches an opening one of its type. -/
namespace BlockTemplate

/-- What a block does in a code line, as far as its id tells. -/
inductive BlockRole where
  | event | definition | condition | loop | otherwise | plain
  deriving DecidableEq

namespace CodeBlock

/-- The block between two branches has an id and nothing else. -/
def isBareElse (b : CodeBlock) : Bool :=
  b.block == elseBlock && b.items.isEmpty && b.action.isNone && b.subAction.isNone &&
    b.data.isNone && b.target.isNone && b.inverted.isNone

def role (b : CodeBlock) : BlockRole :=
  if b.block = "event" ∨ b.block = "entity_event" then .event
  else if b.block = "func" ∨ b.block = "process" then .definition
  else if "if_".toList.isPrefixOf b.block.toList then .condition
  else if b.block = "repeat" then .loop
  else if b.isBareElse then .otherwise
  else .plain

theorem role_else : role { block := elseBlock } = .otherwise := rfl

end CodeBlock

/-- The blocks of a body and the bodies that they head. -/
inductive BlockTree where
  | block (b : CodeBlock)
  | ifThen (b : CodeBlock) (body : List BlockTree)
  | ifElse (b : CodeBlock) (body other : List BlockTree)
  | loop (b : CodeBlock) (body : List BlockTree)

/-- The productions of a body, one for each way it can begin. -/
inductive Body : List BlockTree → List Record → Prop
  | empty : Body [] []
  | block {b : CodeBlock} {rest : List BlockTree} {after : List Record}
      (role : b.role = .plain) (tail : Body rest after) :
      Body (.block b :: rest) (.block b :: after)
  | ifThen {b : CodeBlock} {body rest : List BlockTree} {inner after : List Record}
      (role : b.role = .condition) (inside : Body body inner) (tail : Body rest after) :
      Body (.ifThen b body :: rest)
        (.block b :: .bracket .opening .normal ::
          (inner ++ .bracket .closing .normal :: after))
  | ifElse {b : CodeBlock} {body other rest : List BlockTree} {inner second after : List Record}
      (role : b.role = .condition) (inside : Body body inner) (otherwise : Body other second)
      (tail : Body rest after) :
      Body (.ifElse b body other :: rest)
        (.block b :: .bracket .opening .normal ::
          (inner ++ .bracket .closing .normal ::
            .block { block := elseBlock } :: .bracket .opening .normal ::
              (second ++ .bracket .closing .normal :: after)))
  | loop {b : CodeBlock} {body rest : List BlockTree} {inner after : List Record}
      (role : b.role = .loop) (inside : Body body inner) (tail : Body rest after) :
      Body (.loop b body :: rest)
        (.block b :: .bracket .opening .repeating ::
          (inner ++ .bracket .closing .repeating :: after))

/-- A code line: a body, maybe after the block that heads it. -/
inductive CodeLine where
  | plain (body : List BlockTree)
  | event (b : CodeBlock) (body : List BlockTree)
  | definition (b : CodeBlock) (body : List BlockTree)

inductive CodeLine.Derives : CodeLine → List Record → Prop
  | plain {body : List BlockTree} {records : List Record} (inside : Body body records) :
      Derives (.plain body) records
  | event {b : CodeBlock} {body : List BlockTree} {records : List Record}
      (role : b.role = .event) (inside : Body body records) :
      Derives (.event b body) (.block b :: records)
  | definition {b : CodeBlock} {body : List BlockTree} {records : List Record}
      (role : b.role = .definition) (inside : Body body records) :
      Derives (.definition b body) (.block b :: records)

/-- What may follow a body: the end, or the close of the scope around it. -/
def EndsBody : List Record → Prop
  | [] => True
  | .bracket .closing _ :: _ => True
  | _ => False

theorem endsBody_closing (type : BracketType) (after : List Record) :
    EndsBody (.bracket .closing type :: after) := trivial

/-- Lists that begin with a block agree on its role. -/
theorem role_eq_of_cons {b b' : CodeBlock} {records records' : List Record} {r r' : BlockRole}
    (heq : Record.block b :: records = .block b' :: records') (h : b.role = r)
    (h' : b'.role = r') : r = r' := by
  injection heq with hblock
  injection hblock with hb
  rw [← h, ← h', hb]

namespace Body

/-- The blocks that a body can begin with. -/
theorem head {trees : List BlockTree} {records after following : List Record} {b : CodeBlock}
    (h : Body trees records) (hend : EndsBody following)
    (heq : records ++ following = .block b :: after) :
    b.role = .plain ∨ b.role = .condition ∨ b.role = .loop := by
  cases h with
  | empty =>
    obtain rfl : following = _ := heq
    exact hend.elim
  | block role _ => exact .inl (role_eq_of_cons heq role rfl).symm
  | ifThen role _ _ | ifElse role _ _ _ => exact .inr (.inl (role_eq_of_cons heq role rfl).symm)
  | loop role _ _ => exact .inr (.inr (role_eq_of_cons heq role rfl).symm)

/-- A body never goes on with an else block: that belongs to the scope before. -/
theorem head_ne_else {trees : List BlockTree} {records after following : List Record}
    (h : Body trees records) (hend : EndsBody following) :
    records ++ following ≠ .block { block := elseBlock } :: after := by
  intro heq
  have hrole := h.head hend heq
  rw [CodeBlock.role_else] at hrole
  simp at hrole

/-- Scopes that agree have the same block and the same inside, if that is settled by where it may
end. -/
theorem scope_inj {b b' : CodeBlock} {type type' : BracketType} {body body' : List BlockTree}
    {inner inner' after after' : List Record}
    (hinside : ∀ {following following'}, EndsBody following → EndsBody following' →
      inner ++ following = inner' ++ following' → body = body' ∧ following = following')
    (heq : Record.block b :: .bracket .opening type :: (inner ++ .bracket .closing type :: after) =
      .block b' :: .bracket .opening type' :: (inner' ++ .bracket .closing type' :: after')) :
    b = b' ∧ body = body' ∧ after = after' := by
  injection heq with hblock heq
  injection hblock with hb
  injection heq with _ heq
  obtain ⟨hbody, heq⟩ := hinside (endsBody_closing _ _) (endsBody_closing _ _) heq
  injection heq with _ hafter
  exact ⟨hb, hbody, hafter⟩

/-- Two bodies that agree up to where each may end are the same. What follows is part of the
statement, so that it applies inside a scope, where the close of that scope follows. -/
theorem unique_split {trees trees' : List BlockTree} {records records' : List Record}
    {following following' : List Record} (h : Body trees records) (h' : Body trees' records')
    (hend : EndsBody following) (hend' : EndsBody following')
    (heq : records ++ following = records' ++ following') :
    trees = trees' ∧ following = following' := by
  induction h generalizing trees' records' following following' with
  | empty =>
    cases h' with
    | empty => exact ⟨rfl, heq⟩
    | block | ifThen | ifElse | loop =>
      obtain rfl : following = _ := heq
      exact hend.elim
  | block role _ ih =>
    cases h' with
    | empty =>
      obtain rfl : _ = following' := heq
      exact hend'.elim
    | block role' tail' =>
      injection heq with hblock heq
      injection hblock with hb
      obtain ⟨rfl, rfl⟩ := ih tail' hend hend' heq
      exact ⟨by rw [hb], rfl⟩
    | ifThen role' | ifElse role' | loop role' => cases role_eq_of_cons heq role role'
  | ifThen role _ tail ihInside ih =>
    cases h' with
    | empty =>
      obtain rfl : _ = following' := heq
      exact hend'.elim
    | block role' | loop role' => cases role_eq_of_cons heq role role'
    | ifThen role' inside' tail' =>
      simp only [List.cons_append, List.append_assoc] at heq
      obtain ⟨rfl, rfl, heq⟩ := scope_inj (ihInside inside') heq
      obtain ⟨rfl, rfl⟩ := ih tail' hend hend' heq
      exact ⟨rfl, rfl⟩
    | ifElse role' inside' otherwise' tail' =>
      simp only [List.cons_append, List.append_assoc] at heq
      obtain ⟨_, _, heq⟩ := scope_inj (ihInside inside') heq
      exact absurd heq (tail.head_ne_else hend)
  | ifElse role _ _ tail ihInside ihOtherwise ih =>
    cases h' with
    | empty =>
      obtain rfl : _ = following' := heq
      exact hend'.elim
    | block role' | loop role' => cases role_eq_of_cons heq role role'
    | ifThen role' inside' tail' =>
      simp only [List.cons_append, List.append_assoc] at heq
      obtain ⟨_, _, heq⟩ := scope_inj (ihInside inside') heq
      exact absurd heq.symm (tail'.head_ne_else hend')
    | ifElse role' inside' otherwise' tail' =>
      simp only [List.cons_append, List.append_assoc] at heq
      obtain ⟨rfl, rfl, heq⟩ := scope_inj (ihInside inside') heq
      obtain ⟨_, rfl, heq⟩ := scope_inj (ihOtherwise otherwise') heq
      obtain ⟨rfl, rfl⟩ := ih tail' hend hend' heq
      exact ⟨rfl, rfl⟩
  | loop role _ tail ihInside ih =>
    cases h' with
    | empty =>
      obtain rfl : _ = following' := heq
      exact hend'.elim
    | block role' | ifThen role' | ifElse role' => cases role_eq_of_cons heq role role'
    | loop role' inside' tail' =>
      simp only [List.cons_append, List.append_assoc] at heq
      obtain ⟨rfl, rfl, heq⟩ := scope_inj (ihInside inside') heq
      obtain ⟨rfl, rfl⟩ := ih tail' hend hend' heq
      exact ⟨rfl, rfl⟩

theorem unique {trees trees' : List BlockTree} {records : List Record} (h : Body trees records)
    (h' : Body trees' records) : trees = trees' :=
  have hend : EndsBody [] := trivial
  (h.unique_split h' hend hend rfl).1

/-- The block before a body in a line is none that the body could begin with. -/
theorem ne_headed {trees : List BlockTree} {records : List Record} {b : CodeBlock}
    (h : Body trees (.block b :: records)) : b.role ≠ .event ∧ b.role ≠ .definition := by
  have hend : EndsBody [] := trivial
  obtain hrole | hrole | hrole := h.head hend (List.append_nil _) <;> simp [hrole]

end Body

theorem CodeLine.Derives.unique {line line' : CodeLine} {records : List Record}
    (h : line.Derives records) (h' : line'.Derives records) : line = line' := by
  cases h with
  | plain inside =>
    cases h' with
    | plain inside' => rw [inside.unique inside']
    | event role' _ => exact absurd role' inside.ne_headed.1
    | definition role' _ => exact absurd role' inside.ne_headed.2
  | event role inside =>
    cases h' with
    | plain inside' => exact absurd role inside'.ne_headed.1
    | event _ inside' => rw [inside.unique inside']
    | definition role' _ => cases role.symm.trans role'
  | definition role inside =>
    cases h' with
    | plain inside' => exact absurd role inside'.ne_headed.2
    | event role' _ => cases role.symm.trans role'
    | definition _ inside' => rw [inside.unique inside']

/-- The types of the brackets left open, innermost first. A close without an open, or of another
type than the innermost one, fails. -/
def matchBrackets : List BracketType → List Record → Option (List BracketType)
  | opened, [] => some opened
  | opened, .block _ :: rest => matchBrackets opened rest
  | opened, .bracket .opening type :: rest => matchBrackets (type :: opened) rest
  | [], .bracket .closing _ :: _ => none
  | innermost :: opened, .bracket .closing type :: rest =>
    if type = innermost then matchBrackets opened rest else none

theorem matchBrackets_append (opened : List BracketType) (xs ys : List Record) :
    matchBrackets opened (xs ++ ys) = (matchBrackets opened xs).bind (matchBrackets · ys) := by
  induction xs generalizing opened with
  | nil => rfl
  | cons record xs ih =>
    cases record with
    | block b => exact ih opened
    | bracket side type =>
      cases side with
      | opening => exact ih (type :: opened)
      | closing =>
        cases opened with
        | nil => rfl
        | cons innermost opened =>
          simp only [List.cons_append, matchBrackets]
          split
          · exact ih opened
          · rfl

/-- A body leaves the open brackets as they were. -/
theorem Body.matchBrackets_eq {trees : List BlockTree} {records : List Record}
    (h : Body trees records) (opened : List BracketType) :
    matchBrackets opened records = some opened := by
  induction h generalizing opened with
  | empty => rfl
  | block _ _ ih => exact ih opened
  | ifThen _ _ _ ihInside ih | loop _ _ _ ihInside ih =>
    simp [matchBrackets, matchBrackets_append, ihInside, ih]
  | ifElse _ _ _ _ ihInside ihOtherwise ih =>
    simp [matchBrackets, matchBrackets_append, ihInside, ihOtherwise, ih]

theorem CodeLine.Derives.matchBrackets_eq {line : CodeLine} {records : List Record}
    (h : line.Derives records) : matchBrackets [] records = some [] := by
  cases h with
  | plain inside | event _ inside | definition _ inside => exact inside.matchBrackets_eq []

/-- Where the whole matches, so does every part from its beginning. -/
theorem matchBrackets_take {opened final : List BracketType} {records : List Record}
    (h : matchBrackets opened records = some final) (n : Nat) :
    (matchBrackets opened (records.take n)).isSome := by
  rw [← List.take_append_drop n records, matchBrackets_append] at h
  obtain ⟨mid, hmid, _⟩ := Option.bind_eq_some_iff.1 h
  simp [hmid]

end BlockTemplate
