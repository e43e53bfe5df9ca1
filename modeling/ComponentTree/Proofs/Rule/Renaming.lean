import ComponentTree.Proofs.Tree.Renaming
import ComponentTree.Rule.Program

/-!
Rules that do not look at identities.

Two programs are renamed to each other if they ask for the same things in the same order, write
renamed trees, and go on to renamed programs whenever what they are given is renamed
(`RuleM.Renamed`). A program that is renamed to itself, whatever the identities are, can compare
identities and can do nothing else with them. Renamed programs are put together to renamed programs
(`Renamed.bind`). A program that asks neither for identifiers nor for the memory is renamed to
others without any regard to these (`Renamed.forget`).
-/

namespace ComponentTree

variable {σ α β α' β' : Type} {keys : Key → Key → Prop}

/-! ### Contexts and writes -/

/-- The contexts hold renamed trees, and all else is the same. -/
structure Context.Renamed (keys : Key → Key → Prop) (c c' : Context) : Prop where
  record : c.record.Renamed keys c'.record
  position : c.position = c'.position
  replacedBy : Option.Rel (Node.Renamed keys) c.replacedBy c'.replacedBy
  library : c.library = c'.library

/-- The writes write renamed trees, or the same to the rendering. -/
inductive Write.Renamed (keys : Key → Key → Prop) : Write → Write → Prop
  | content {t t' : Node} (h : t.Renamed keys t') : Renamed keys (.content t) (.content t')
  | mixin {t t' : Node} (h : t.Renamed keys t') : Renamed keys (.mixin t) (.mixin t')
  | rendering {w : Write}
      (h : ∀ r : Record, r.write w = { r with rendering := r.rendering.write w }) :
      Renamed keys w w

theorem Record.Renamed.write {r r' : Record} {w w' : Write} (h : r.Renamed keys r')
    (hw : w.Renamed keys w') : (r.write w).Renamed keys (r'.write w') := by
  cases hw with
  | content ht => exact { h with fields := by rw [h.fields]; rfl, content := ht }
  | mixin ht =>
    exact { h with
      fields := by rw [h.fields]; rfl
      mixins := List.rel_append h.mixins (.cons ht .nil) }
  | rendering hw =>
    rw [hw, hw]
    exact { h with fields := by rw [h.fields] }

theorem Context.Renamed.write {c c' : Context} {w w' : Write} (h : c.Renamed keys c')
    (hw : w.Renamed keys w') : (c.write w).Renamed keys (c'.write w') :=
  { h with record := h.record.write hw }

theorem Context.tree_eq (c : Context) : c.tree = c.replacedBy.getD (.record c.record) := by
  unfold tree
  split
  · rename_i t ht
    rw [ht, t.snapshot_eq, Option.getD_some]
  · rename_i hnone
    rw [hnone, Record.snapshot_eq, Option.getD_none]

/-- The record as a tree, or the tree that replaced it, is renamed. -/
theorem Context.Renamed.tree {c c' : Context} (h : c.Renamed keys c') :
    c.tree.Renamed keys c'.tree := by
  rw [c.tree_eq, c'.tree_eq]
  exact rel_getD h.replacedBy (Node.renamed_record.mpr h.record)

/-! ### Programs -/

/-- What is related on two sides: identities that stand for the same record, memories that hold the
same, and whether identifiers have to be the same. -/
structure Renaming (σ : Type) where
  keys : Key → Key → Prop
  memory : σ → σ → Prop
  ids : Prop

/-- The programs do the same as long as they are given the same but for identities. A copy with new
identities may be asked for of trees that are the same without identities. -/
inductive RuleM.Renamed (M : Renaming σ) (R : α → β → Prop) : RuleM σ α → RuleM σ β → Prop
  | done {a : α} {b : β} (h : R a b) : Renamed M R (.done a) (.done b)
  | fail (failure : Failure) : Renamed M R (.fail failure) (.fail failure)
  | look {next : Context → RuleM σ α} {next' : Context → RuleM σ β}
      (h : ∀ c c', c.Renamed M.keys c' → Renamed M R (next c) (next' c')) :
      Renamed M R (.look next) (.look next')
  | write {w w' : Write} {next : RuleM σ α} {next' : RuleM σ β} (hw : w.Renamed M.keys w')
      (h : Renamed M R next next') : Renamed M R (.write w next) (.write w' next')
  | generateId {next : String → RuleM σ α} {next' : String → RuleM σ β} (hids : M.ids)
      (h : ∀ id, Renamed M R (next id) (next' id)) :
      Renamed M R (.generateId next) (.generateId next')
  | issue {t t' : Node} {next : Node → RuleM σ α} {next' : Node → RuleM σ β}
      (hsame : t.anonymous = t'.anonymous)
      (h : ∀ copy copy', copy.anonymous = t.anonymous → copy.Renamed M.keys copy' →
        Renamed M R (next copy) (next' copy')) :
      Renamed M R (.issue t next) (.issue t' next')
  | runAhead {next : Except Failure Unit → RuleM σ α} {next' : Except Failure Unit → RuleM σ β}
      (h : ∀ outcome, Renamed M R (next outcome) (next' outcome)) :
      Renamed M R (.runAhead next) (.runAhead next')
  | recall {next : σ → RuleM σ α} {next' : σ → RuleM σ β}
      (h : ∀ m m', M.memory m m' → Renamed M R (next m) (next' m')) :
      Renamed M R (.recall next) (.recall next')
  | remember {m m' : σ} {next : RuleM σ α} {next' : RuleM σ β} (hm : M.memory m m')
      (h : Renamed M R next next') : Renamed M R (.remember m next) (.remember m' next')

namespace RuleM

variable {M : Renaming σ} {R : α → β → Prop} {S : α' → β' → Prop}

theorem Renamed.bind {x : RuleM σ α} {x' : RuleM σ β} {f : α → RuleM σ α'} {f' : β → RuleM σ β'}
    (hx : x.Renamed M R x') (hf : ∀ a b, R a b → (f a).Renamed M S (f' b)) :
    (x >>= f).Renamed M S (x' >>= f') := by
  induction hx with
  | done h => exact hf _ _ h
  | fail failure => exact .fail failure
  | look _ ih => exact .look fun c c' hc => ih c c' hc
  | write hw _ ih => exact .write hw ih
  | generateId hids _ ih => exact .generateId hids ih
  | issue hsame _ ih => exact .issue hsame ih
  | runAhead _ ih => exact .runAhead ih
  | «recall» _ ih => exact .recall ih
  | remember hm _ ih => exact .remember hm ih

theorem Renamed.imp {x : RuleM σ α} {x' : RuleM σ β} {R' : α → β → Prop} (h : x.Renamed M R x')
    (himp : ∀ a b, R a b → R' a b) : x.Renamed M R' x' := by
  induction h with
  | done h => exact .done (himp _ _ h)
  | fail failure => exact .fail failure
  | look _ ih => exact .look ih
  | write hw _ ih => exact .write hw ih
  | generateId hids _ ih => exact .generateId hids ih
  | issue hsame _ ih => exact .issue hsame ih
  | runAhead _ ih => exact .runAhead ih
  | «recall» _ ih => exact .recall ih
  | remember hm _ ih => exact .remember hm ih

theorem Renamed.pure {a : α} {b : β} (h : R a b) :
    (Pure.pure a : RuleM σ α).Renamed M R (Pure.pure b) :=
  .done h

/-- A program that asks neither for identifiers nor for the memory. -/
inductive Forgetful : RuleM σ α → Prop
  | done (a : α) : Forgetful (.done a)
  | fail (failure : Failure) : Forgetful (.fail failure)
  | look {next : Context → RuleM σ α} (h : ∀ c, Forgetful (next c)) : Forgetful (.look next)
  | write (w : Write) {next : RuleM σ α} (h : Forgetful next) : Forgetful (.write w next)
  | issue (t : Node) {next : Node → RuleM σ α} (h : ∀ copy, Forgetful (next copy)) :
    Forgetful (.issue t next)
  | runAhead {next : Except Failure Unit → RuleM σ α} (h : ∀ outcome, Forgetful (next outcome)) :
    Forgetful (.runAhead next)

/-- Forgetful programs are renamed to each other whatever identifiers and memories are. -/
theorem Renamed.forget {x : RuleM σ α} {x' : RuleM σ β} (h : x.Renamed M R x')
    (hx : x.Forgetful) : x.Renamed ⟨M.keys, fun _ _ => True, False⟩ R x' := by
  induction h with
  | done h => exact .done h
  | fail failure => exact .fail failure
  | look _ ih =>
    cases hx with
    | look hnext => exact .look fun c c' hc => ih c c' hc (hnext c)
  | write hw _ ih =>
    cases hx with
    | write _ hnext => exact .write hw (ih hnext)
  | generateId => cases hx
  | issue hsame _ ih =>
    cases hx with
    | issue _ hnext => exact .issue hsame fun copy copy' ht h => ih copy copy' ht h (hnext copy)
  | runAhead _ ih =>
    cases hx with
    | runAhead hnext => exact .runAhead fun outcome => ih outcome (hnext outcome)
  | «recall» => cases hx
  | remember => cases hx

/-! ### What programs are put together from -/

theorem renamed_context : (context : RuleM σ Context).Renamed M (Context.Renamed M.keys) context :=
  .look fun _ _ hc => .done hc

theorem renamed_change {w w' : Write} (hw : w.Renamed M.keys w') :
    (change w : RuleM σ Unit).Renamed M (fun _ _ => True) (change w') :=
  .write hw (.done trivial)

theorem renamed_freshId (hids : M.ids) : (freshId : RuleM σ String).Renamed M Eq freshId :=
  .generateId hids fun _ => .done rfl

theorem renamed_fresh {t t' : Node} (hsame : t.anonymous = t'.anonymous) :
    (fresh t : RuleM σ Node).Renamed M
      (fun copy copy' => copy.anonymous = t.anonymous ∧ copy.Renamed M.keys copy') (fresh t') :=
  .issue hsame fun _ _ hcopy h => .done ⟨hcopy, h⟩

theorem renamed_takeContent :
    (takeContent : RuleM σ Node).Renamed M (Node.Renamed M.keys) takeContent :=
  .look fun _ _ hc => .write (.content ⟨rfl, .nil⟩) (.done hc.record.content)

theorem renamed_ahead : (ahead : RuleM σ Unit).Renamed M (fun _ _ => True) ahead := by
  refine .runAhead fun outcome => ?_
  cases outcome with
  | ok => exact .done trivial
  | error e => exact .fail e

theorem renamed_memory : (memory : RuleM σ σ).Renamed M M.memory memory :=
  .recall fun _ _ hm => .done hm

theorem renamed_modifyMemory {f f' : σ → σ} (hf : ∀ m m', M.memory m m' → M.memory (f m) (f' m')) :
    (modifyMemory f).Renamed M (fun _ _ => True) (modifyMemory f') :=
  .recall fun m m' hm => .remember (hf m m' hm) (.done trivial)

end RuleM

end ComponentTree
