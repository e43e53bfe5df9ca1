import ComponentTree.Failure
import ComponentTree.Rule.Context

/-!
Rules as programs.

The body of a rule is a program that looks at its context, changes it, and asks the engine for
identifiers, identities and for the record's other rules; it ends in an answer or a failure. Rules
may share a memory of type `σ` that lives longer than one expansion. A program is data: what an
engine does with it is defined elsewhere.
-/

namespace ComponentTree

/-- A program of a rule with answers in `α`. -/
inductive RuleM (σ α : Type) where
  | done (answer : α)
  | fail (failure : Failure)
  | look (next : Context → RuleM σ α)
  | write (change : Write) (next : RuleM σ α)
  /-- Asks for an identifier that was never given before. -/
  | generateId (next : String → RuleM σ α)
  /-- Asks for a copy of a tree with new identities. -/
  | issue (tree : Node) (next : Node → RuleM σ α)
  /-- Runs the record's other rules now; their failure is handed over. -/
  | runAhead (next : Except Failure Unit → RuleM σ α)
  | recall (next : σ → RuleM σ α)
  | remember (memory : σ) (next : RuleM σ α)

namespace RuleM

variable {σ α β : Type}

/-- Goes on with `f` after the program's answer. -/
def bind : RuleM σ α → (α → RuleM σ β) → RuleM σ β
  | .done a, f => f a
  | .fail e, _ => .fail e
  | .look next, f => .look fun c => (next c).bind f
  | .write w next, f => .write w (next.bind f)
  | .generateId next, f => .generateId fun id => (next id).bind f
  | .issue tree next, f => .issue tree fun t => (next t).bind f
  | .runAhead next, f => .runAhead fun r => (next r).bind f
  | .recall next, f => .recall fun m => (next m).bind f
  | .remember m next, f => .remember m (next.bind f)

instance : Monad (RuleM σ) where
  pure := .done
  bind := bind

/-- What the program sees. -/
def context : RuleM σ Context := .look .done

/-- A change to the record. -/
def change (w : Write) : RuleM σ Unit := .write w (.done ())

/-- A new identifier. -/
def freshId : RuleM σ String := .generateId .done

/-- A copy of a tree with new identities. -/
def fresh (tree : Node) : RuleM σ Node := .issue tree .done

/-- The content, moved out of the record. -/
def takeContent : RuleM σ Node :=
  .look fun c => .write (.content .absent) (.done c.record.content)

/-- Runs the record's other rules now and fails when they do. -/
def ahead : RuleM σ Unit :=
  .runAhead fun
    | .ok () => .done ()
    | .error e => .fail e

/-- The memory that rules share. -/
def memory : RuleM σ σ := .recall .done

/-- Changes the memory that rules share. -/
def modifyMemory (f : σ → σ) : RuleM σ Unit := .recall fun m => .remember (f m) (.done ())

end RuleM

end ComponentTree
