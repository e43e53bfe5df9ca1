import ComponentTree.Engine

/-!
What an expansion reads and changes while it runs.

The world holds the counters for identities and identifiers, the memory that rules share, and the
ledger: which rules already ran on which records, and a journal of what happened. A run that fails
keeps the world it has reached. Running out of steps is an outcome of its own and no failure that a
rule could catch.
-/

namespace ComponentTree

/-- A step from a node to one inside it. -/
inductive Edge where
  | item (index : Nat)
  | content
deriving DecidableEq, Repr

/-- The way from the root of a tree to a node. -/
abbrev Path := List Edge

/-- Something that happened in an expansion. Passes are numbered in the order in which they
begin. -/
inductive Event where
  /-- A record with a component came up. -/
  | visited (pass : Nat) (path : Path) (key : Key) (component : String)
      (variant part : Option String)
  /-- A rule began to run. -/
  | started (pass : Nat) (path : Path) (key : Key) (rule : RuleId) (position : Position)
  /-- A rule replaced the record. -/
  | replaced (pass : Nat) (path : Path) (key : Key) (rule : RuleId)
  /-- A rule was given an identifier. -/
  | identified (id : String)
deriving DecidableEq, Repr

/-- The bookkeeping of one expansion, shared by all its passes. -/
structure Ledger where
  /-- The rules that ran on each record, the latest first. -/
  marks : List (Key × RuleId) := []
  /-- The number of passes that have begun. -/
  passes : Nat := 0
  /-- What happened, the latest first. -/
  journal : List Event := []

/-- The state of a run. -/
structure World (σ : Type) where
  /-- The identity of the next new record. -/
  nextKey : Key := 1
  /-- The number of the next identifier. -/
  nextId : UInt64 := 0
  memory : σ
  ledger : Ledger := {}

/-- Why a run ended without an answer. -/
inductive Stop where
  | failed (failure : Failure)
  /-- The steps that it was given were used up. -/
  | exhausted
deriving DecidableEq, Repr

/-- A run with an answer in `α`, over a memory in `σ`. -/
abbrev Run (σ α : Type) := ExceptT Stop (StateM (World σ)) α

namespace Run

variable {σ α : Type}

/-- A run that hands over its failure. Running out of steps is not handed over. -/
def attempt (x : Run σ α) : Run σ (Except Failure α) := fun w =>
  match x w with
  | (.ok a, w) => (.ok (.ok a), w)
  | (.error (.failed e), w) => (.ok (.error e), w)
  | (.error .exhausted, w) => (.error .exhausted, w)

/-- Enters an event into the journal. -/
def log (event : Event) : Run σ Unit :=
  modify fun w => { w with ledger := { w.ledger with journal := event :: w.ledger.journal } }

/-- Notes that a rule ran on a record; answers whether it had not run there before. -/
def mark (key : Key) (rule : RuleId) : Run σ Bool := do
  let w ← get
  if w.ledger.marks.contains (key, rule) then return false
  else
    set { w with ledger := { w.ledger with marks := (key, rule) :: w.ledger.marks } }
    return true

/-- Begins a pass and gives its number. -/
def beginPass : Run σ Nat := do
  let w ← get
  set { w with ledger := { w.ledger with passes := w.ledger.passes + 1 } }
  return w.ledger.passes

/-- A copy of a tree with new identities. -/
def fresh (tree : Node) : Run σ Node := do
  let w ← get
  let (tree, nextKey) := tree.reissue w.nextKey
  set { w with nextKey }
  return tree

/-- A new identifier with the given text in front. -/
def freshId (idPrefix : String) : Run σ String := do
  let w ← get
  let id := idPrefix ++ toString w.nextId.toNat
  set { w with nextId := w.nextId + 1 }
  log (.identified id)
  return id

end Run

end ComponentTree
