import ComponentTree.Proofs.Tree.Path

/-!
Changing a tree in place.

A change at a path applies a function to the node there, and putting a node is a change that looks
at nothing. Main statements: changes at paths that are apart can be made in either order
(`alter_comm`), and a change below the place where a node was put is a change of that node
(`alter_append_put`).
-/

namespace ComponentTree.Node

/-- The tree with a function applied to the node at the end of a path; a path that leads nowhere
changes nothing. -/
def alter (g : Node → Node) : Path → Node → Node
  | [], node => g node
  | .item i :: path, .list items => .list (items.modify i (alter g path))
  | .content :: path, .record r => .record { r with content := alter g path r.content }
  | _ :: _, node => node

theorem alter_nil (g : Node → Node) (t : Node) : alter g [] t = g t := by
  unfold alter; rfl

theorem alter_item_list (g : Node → Node) (i : Nat) (path : Path) (items : List Node) :
    alter g (.item i :: path) (list items) = list (items.modify i (alter g path)) := by
  rw [alter]

theorem alter_content_record (g : Node → Node) (path : Path) (r : Record) :
    alter g (.content :: path) (record r) =
      record { r with content := alter g path r.content } := by
  rw [alter]

/-- A change below the place where a node was put is a change of that node. -/
theorem alter_append_put (g : Node → Node) (new t : Node) (p q : Path) :
    alter g (p ++ q) (put new p t) = put (alter g q new) p t := by
  induction p generalizing t with
  | nil => rw [List.nil_append, put_nil, put_nil]
  | cons edge p ih =>
    rw [List.cons_append]
    cases edge <;> cases t <;> try rfl
    · rename_i i items
      rw [put, alter_item_list, put, List.modify_modify_eq]
      exact congrArg _ (congrArg _ (funext ih))
    · rw [put, alter_content_record, put]
      exact congrArg record (by rw [ih])

/-- Only what is done to the node at the path counts. -/
theorem alter_congr {g h : Node → Node} {p : Path} {t n : Node} (hn : t.at? p = some n)
    (hg : g n = h n) : alter g p t = alter h p t := by
  induction p generalizing t with
  | nil =>
    rw [at?_nil, Option.some.injEq] at hn
    rw [alter_nil, alter_nil, hn, hg]
  | cons edge p ih =>
    rcases at?_cons_eq_some hn with ⟨i, items, item, rfl, rfl, hi, hn⟩ | ⟨r, rfl, rfl, hn⟩
    · rw [alter_item_list, alter_item_list]
      refine congrArg list (List.ext_getElem? fun j => ?_)
      rw [List.getElem?_modify, List.getElem?_modify]
      split
      · rename_i hij
        subst hij
        rw [hi]
        exact congrArg some (ih hn)
      · rfl
    · rw [alter_content_record, alter_content_record, ih hn]

theorem put_eq_alter (new : Node) (p : Path) (t : Node) :
    put new p t = alter (fun _ => new) p t := by
  induction p generalizing t with
  | nil => rw [put_nil, alter_nil]
  | cons edge p ih =>
    cases edge <;> cases t <;> try rfl
    · rw [put, alter_item_list]
      exact congrArg _ (congrArg _ (funext ih))
    · rw [put, alter_content_record, ih]

/-- Putting a node below the place where one was put is putting it into that one. -/
theorem put_append_put (new n t : Node) (p q : Path) :
    put new (p ++ q) (put n p t) = put (put new q n) p t := by
  rw [put_eq_alter new, alter_append_put, put_eq_alter new]

theorem alter_id (p : Path) (t : Node) : alter id p t = t := by
  induction p generalizing t with
  | nil => exact alter_nil id t
  | cons edge p ih =>
    cases edge <;> cases t <;> try rfl
    · have hid : alter id p = id := funext ih
      rw [alter_item_list, hid, List.modify_id]
    · rename_i r
      rw [alter_content_record, ih]
      cases r
      rfl

/-- A change at a path puts the changed node there. -/
theorem alter_eq_put {g : Node → Node} {p : Path} {t n : Node} (h : t.at? p = some n) :
    alter g p t = put (g n) p t := by
  rw [put_eq_alter]
  exact alter_congr h rfl

/-- A function that leaves the node at the path alone changes nothing. -/
theorem alter_eq_self {g : Node → Node} {p : Path} {t n : Node} (h : t.at? p = some n)
    (hg : g n = n) : alter g p t = t :=
  (alter_congr h hg).trans (alter_id p t)

/-- Putting the node that is there changes nothing. -/
theorem put_at? {p : Path} {t n : Node} (h : t.at? p = some n) : put n p t = t := by
  rw [put_eq_alter]
  exact alter_eq_self h rfl

/-- Changes at paths that are apart can be made in either order. -/
theorem alter_comm (g h : Node → Node) {p q : Path} (t : Node) (ha : Path.Apart p q) :
    alter g p (alter h q t) = alter h q (alter g p t) := by
  induction p generalizing t q with
  | nil => exact absurd List.nil_prefix ha.1
  | cons edge p ih =>
    obtain _ | ⟨edge', q⟩ := q
    · exact absurd List.nil_prefix ha.2
    by_cases he : edge = edge'
    · subst he
      have hpq : Path.Apart p q :=
        ⟨fun hp => ha.1 (List.cons_prefix_cons.mpr ⟨rfl, hp⟩),
          fun hq => ha.2 (List.cons_prefix_cons.mpr ⟨rfl, hq⟩)⟩
      cases edge <;> cases t <;> try rfl
      · rename_i i items
        simp only [alter_item_list, List.modify_modify_eq]
        exact congrArg _ (congrArg _ (funext fun n => ih n hpq))
      · simp only [alter_content_record, ih _ hpq]
    · cases edge <;> cases t <;> cases edge' <;> try rfl
      · rename_i i items j
        have hij : i ≠ j := fun hij => he (by rw [hij])
        simp only [alter_item_list, List.modify_modify_ne _ _ _ hij]
      · exact absurd rfl he

end ComponentTree.Node
