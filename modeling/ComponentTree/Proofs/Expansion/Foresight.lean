import ComponentTree.Proofs.Expansion.Fuel
import ComponentTree.Proofs.Expansion.Worklist
import ComponentTree.Proofs.Tree.Veiled
import Mathlib.Data.List.Pairwise

/-!
The tree that a queue leads to.

If it is known what will become of the node at every queued site, then the tree that a pass will end
with can be foreseen: the one in which each of these nodes has been changed into that. Sites are
apart from each other, so the order in which they are changed does not count. A turn leaves the
foreseen tree as it is if its deed fulfils what was foreseen for its site, by what it leaves there
and what is foreseen for the sites that it queues (`Pass.foreseen_after`). Main statements: a pass
of which each turn leaves less to be done runs down, and keeps what each turn keeps
(`RunsDown.runPass`); if its turns do what was foreseen, it ends with the tree that was foreseen
(`Foresees.runPass`), and so does an expansion (`Foresees.expand`). Identities in mixins are left
out of the comparison, since rules may put new records there.
-/

namespace ComponentTree

variable {σ : Type}

/-- The tree in which a site has been changed in the way that is foreseen for it. -/
def Site.alter (g : Site → Node → Node) (tree : Node) (site : Site) : Node :=
  Node.alter (g site) site.path tree

/-- The tree of a pass in which all queued sites have been changed in the way that is foreseen for
them. -/
def Pass.foreseen (g : Site → Node → Node) (pass : Pass) : Node :=
  pass.queue.foldl (Site.alter g) pass.tree

namespace Site

variable {g : Site → Node → Node}

/-- The order of the sites does not count when they are apart. -/
theorem foldl_alter_perm {sites sites' : List Site} (hp : sites.Perm sites')
    (ha : sites.Pairwise fun s t => Path.Apart s.path t.path) (t : Node) :
    sites.foldl (alter g) t = sites'.foldl (alter g) t := by
  have hsymm : Std.Symm fun s t : Site => Path.Apart s.path t.path := ⟨fun _ _ h => h.symm⟩
  refine hp.foldl_eq' (fun x hx y hy t => ?_) t
  by_cases hxy : x = y
  · rw [hxy]
  · exact Node.alter_comm _ _ t (ha.forall hy hx (Ne.symm hxy))

/-- What is put at a place apart from the sites can be put there afterwards. -/
theorem foldl_alter_put (n : Node) {path : Path} : ∀ (sites : List Site) (t : Node),
    (∀ s ∈ sites, Path.Apart path s.path) →
      sites.foldl (alter g) (Node.put n path t) = Node.put n path (sites.foldl (alter g) t)
  | [], _, _ => rfl
  | s :: sites, t, h => by
    obtain ⟨hs, hsites⟩ := List.forall_mem_cons.mp h
    have hcomm : alter g (Node.put n path t) s = Node.put n path (alter g t s) := by
      rw [Node.put_eq_alter, Node.put_eq_alter]
      exact (Node.alter_comm _ _ t hs).symm
    rw [List.foldl_cons, List.foldl_cons, hcomm, foldl_alter_put n sites _ hsites]

end Site

/-- With the sites that it queues changed in the way that is foreseen for them, a deed leaves at its
own site what was foreseen for the node there, but for identities in mixins. -/
def Deed.Fulfils (g : Site → Node → Node) (pass : Pass) (site : Site) (node : Node)
    (deed : Deed) : Prop :=
  ∃ n, (deed.sites pass.rootOnly site).foldl (Site.alter g) (pass.after site deed).tree =
      Node.put n site.path pass.tree ∧
    n.veiled = (g site node).veiled

/-- A turn leaves the foreseen tree as it is, but for identities in mixins. -/
theorem Pass.foreseen_after {e : Engine σ} {g : Site → Node → Node} {pass : Pass} {site : Site}
    {queue : List Site} {node : Node} {deed : Deed} {run : Pass → Run σ Pass} {w w' : World σ}
    (h : deed.Fulfils g { pass with queue } site node) (hs : pass.Sound)
    (hq : pass.queue = site :: queue) (hn : pass.tree.at? site.path = some node)
    (hd : e.Does run { pass with queue } site w deed w') :
    ((after { pass with queue } site deed).foreseen g).veiled = (pass.foreseen g).veiled := by
  -- the sites behind the front and the new ones are apart, so the new ones can be changed first
  have happart := (hs.turn hq hd).apart
  rw [after_queue] at happart
  have hqueue : ∀ s ∈ queue, Path.Apart site.path s.path := fun s => hs.apart_front hq
  obtain ⟨n, hsites, hveiled⟩ := h
  have hafter : (after { pass with queue } site deed).foreseen g =
      Node.put n site.path (queue.foldl (Site.alter g) pass.tree) := by
    rw [foreseen, after_queue, Site.foldl_alter_perm List.perm_append_comm happart,
      List.foldl_append, hsites, Site.foldl_alter_put n queue _ hqueue]
  have hbefore : pass.foreseen g =
      Node.put (g site node) site.path (queue.foldl (Site.alter g) pass.tree) := by
    rw [foreseen, hq, List.foldl_cons, Site.alter, Node.alter_eq_put hn,
      Site.foldl_alter_put _ queue _ hqueue]
  rw [hafter, hbefore, Node.veiled_put, Node.veiled_put, hveiled]

namespace Engine

variable {e : Engine σ} {g : Site → Node → Node} {J : Pass → World σ → Prop} {weight : Pass → Nat}

/-- Passes for which `J` holds run down: while there are as many steps as the pass weighs, the site
at the front can be looked at, and after it `J` holds and the pass weighs less. -/
structure RunsDown (e : Engine σ) (J : Pass → World σ → Prop) (weight : Pass → Nat) : Prop where
  sound : ∀ {pass w}, J pass w → pass.Sound
  turn : ∀ {fuel pass w site queue node}, J pass w → pass.queue = site :: queue →
    pass.tree.at? site.path = some node → weight pass ≤ fuel →
      ∃ deed w', e.Does (e.runPass fuel) { pass with queue } site w deed w' ∧
        J (.after { pass with queue } site deed) w' ∧
        weight (.after { pass with queue } site deed) < weight pass

/-- A pass that runs down ends with an answer and with nothing queued when it has more steps than it
weighs. -/
theorem RunsDown.runPass (h : e.RunsDown J weight) : ∀ (fuel : Nat) {pass : Pass} {w : World σ},
    J pass w → weight pass < fuel → ∃ final w', e.runPass fuel pass w = (.ok final, w') ∧
      J final w' ∧ final.queue = []
  | fuel + 1, pass, w, hJ, hfuel => by
    cases hq : pass.queue with
    | nil => exact ⟨pass, w, runPass_done hq fuel w, hJ, hq⟩
    | cons site queue =>
      obtain ⟨node, hn⟩ := Option.isSome_iff_exists.mp ((h.sound hJ).present_front hq)
      obtain ⟨deed, w₁, hd, hJ₁, hless⟩ := h.turn hJ hq hn (Nat.le_of_lt_succ hfuel)
      obtain ⟨final, w', hrun, hfinal⟩ := RunsDown.runPass h fuel hJ₁ (by omega)
      exact ⟨final, w', (runPass_goes_on hq hd.step_eq).trans hrun, hfinal⟩

/-- A turn with this deed goes as foreseen: the deed fulfils what was foreseen for the node, `J`
holds after it, and the pass weighs less. -/
structure AsForeseen (g : Site → Node → Node) (J : Pass → World σ → Prop) (weight : Pass → Nat)
    (pass : Pass) (site : Site) (queue : List Site) (node : Node) (deed : Deed)
    (w' : World σ) : Prop where
  fulfils : deed.Fulfils g { pass with queue } site node
  next : J (.after { pass with queue } site deed) w'
  less : weight (.after { pass with queue } site deed) < weight pass

/-- What becomes of nodes is foreseen by `g`: wherever `J` holds and there are as many steps as the
pass weighs, the site at the front can be looked at, and the turn goes as foreseen. -/
structure Foresees (e : Engine σ) (g : Site → Node → Node) (J : Pass → World σ → Prop)
    (weight : Pass → Nat) : Prop where
  sound : ∀ {pass w}, J pass w → pass.Sound
  turn : ∀ {fuel pass w site queue node}, J pass w → pass.queue = site :: queue →
    pass.tree.at? site.path = some node → weight pass ≤ fuel →
      ∃ deed w', e.Does (e.runPass fuel) { pass with queue } site w deed w' ∧
        AsForeseen g J weight pass site queue node deed w'

/-- The foreseen tree of a pass that goes as foreseen does not change, but for identities in
mixins. -/
theorem Foresees.runsDown (h : e.Foresees g J weight) (t : Node) :
    e.RunsDown (fun pass w => J pass w ∧ (pass.foreseen g).veiled = t) weight where
  sound hJ := h.sound hJ.1
  turn hJ hq hn hfuel := by
    obtain ⟨deed, w', hd, hturn⟩ := h.turn hJ.1 hq hn hfuel
    have hsame := Pass.foreseen_after hturn.fulfils (h.sound hJ.1) hq hn hd
    exact ⟨deed, w', hd, ⟨hturn.next, hsame.trans hJ.2⟩, hturn.less⟩

/-- A pass with more steps than it weighs ends with the tree that was foreseen, but for identities
in mixins. -/
theorem Foresees.runPass (h : e.Foresees g J weight) (fuel : Nat) (pass : Pass) (w : World σ)
    (hJ : J pass w) (hfuel : weight pass < fuel) : ∃ final w',
      e.runPass fuel pass w = (.ok final, w') ∧
        final.tree.veiled = (pass.foreseen g).veiled := by
  obtain ⟨final, w', hrun, ⟨-, htree⟩, hdone⟩ := (h.runsDown _).runPass fuel ⟨hJ, rfl⟩ hfuel
  rw [Pass.foreseen, hdone] at htree
  exact ⟨final, w', hrun, htree⟩

/-- An expansion ends with the tree that was foreseen, but for identities in mixins. -/
theorem Foresees.expand (h : e.Foresees g J weight) {nextKey : Key} {memory : σ} {root : Node}
    (hJ : J (.start 0 {} false root)
      { nextKey, nextId := e.nextId, memory, ledger := { passes := 1 } }) :
    ∃ x tree, e.EndsWith nextKey memory root x ∧ x.answer = .ok tree ∧
      tree.veiled = (g ⟨[], .listed 0 1, {}, 0⟩ root).veiled := by
  obtain ⟨final, w', hrun, htree⟩ := h.runPass _ _ _ hJ (Nat.lt_succ_self _)
  obtain ⟨x, hx, hanswer, -⟩ := endsWith_of_runPass hrun (by rintro ⟨⟩)
  have hforeseen : Pass.foreseen g (.start 0 {} false root) = g ⟨[], .listed 0 1, {}, 0⟩ root :=
    Node.alter_nil _ root
  exact ⟨x, final.tree, hx, hanswer, hforeseen ▸ htree⟩

end Engine

end ComponentTree
