import ComponentTree.Proofs.Expansion.Sizes
import ComponentTree.Proofs.Rule.Rulebook
import Mathlib.Order.RelClasses

/-!
What the divergence guard prevents.

The guard counts how often the rules go through one place, and places that a rule brings in, as
items of a list, in content, or in a pass that it asks for, count from zero. So the guard ends an
expansion that keeps coming back to places, and not one that keeps making new ones. Main statement
(`guard_ends_iff`): with the guard on and a limit that can be exceeded, an expansion ends exactly if
it begins only so many passes and records come up only so deep in the tree.
-/

namespace ComponentTree

variable {σ : Type}

/-- How deep in its tree a record came up; events of other kinds are at no depth. -/
def Event.depth : Event → Nat
  | .visited _ path .. => path.length
  | _ => 0

/-- No more than `n` passes have begun, and no record with a component has come up at a path of more
than `n` steps. -/
structure Ledger.Within (n : Nat) (l : Ledger) : Prop where
  passes : l.passes ≤ n
  depth : ∀ event ∈ l.journal, event.depth ≤ n

namespace Ledger

instance (n : Nat) (l : Ledger) : Decidable (l.Within n) :=
  decidable_of_iff (l.passes ≤ n ∧ ∀ event ∈ l.journal, event.depth ≤ n)
    ⟨fun h => ⟨h.1, h.2⟩, fun h => ⟨h.passes, h.depth⟩⟩

theorem Within.of_grows {n : Nat} {l l' : Ledger} (h : l.GrowsTo l') (hn : l'.Within n) :
    l.Within n :=
  ⟨Nat.le_trans h.passes hn.passes, fun event he => hn.depth event (h.journal.subset he)⟩

/-- The bound on passes and depth. -/
def within (n : Nat) : Bound := ⟨Within n, Within.of_grows⟩

theorem exists_depth_le (journal : List Event) : ∃ n, ∀ event ∈ journal, event.depth ≤ n := by
  induction journal with
  | nil => exact ⟨0, by rintro event ⟨⟩⟩
  | cons event journal ih =>
    obtain ⟨n, hn⟩ := ih
    refine ⟨max event.depth n, List.forall_mem_cons.mpr ⟨Nat.le_max_left _ _, fun x hx => ?_⟩⟩
    exact Nat.le_trans (hn x hx) (Nat.le_max_right _ _)

/-- Every ledger is within some bound. -/
theorem exists_within (l : Ledger) : ∃ n, l.Within n := by
  obtain ⟨n, hn⟩ := exists_depth_le l.journal
  exact ⟨max l.passes n, Nat.le_max_left _ _,
    fun event he => Nat.le_trans (hn event he) (Nat.le_max_right _ _)⟩

end Ledger

namespace Engine

variable {e : Engine σ}

/-- How much the guard still lets happen at a site: as long as the site is not too deep, what counts
is how deep the tree may go below it, and then how often the rules may go through it. -/
def guardRank (e : Engine σ) (n : Nat) (s : Site) (node : Node) : Nat × Nat :=
  if s.path.length ≤ n then
    (n + 1 - s.path.length, e.options.divergenceLimit.toNat + 1 - s.rounds)
  else (0, node.size)

theorem guardRank_deeper {n : Nat} {s t : Site} (hs : s.path.length ≤ n)
    (ht : s.path.length < t.path.length) (node node' : Node) :
    Prod.Lex (· < ·) (· < ·) (e.guardRank n t node') (e.guardRank n s node) := by
  unfold guardRank
  rw [if_pos hs]
  split
  · exact .left _ _ (by omega)
  · exact .left _ _ (by omega)

/-- A site that was not refused by the guard has one round less to go. -/
theorem guardRank_count (hg : e.options.divergenceGuard = true)
    (hl : e.options.divergenceLimit.toNat < Site.maxRounds) {n : Nat} {s : Site}
    (hs : s.path.length ≤ n) (hr : e.options.refuses s.count.rounds = false) (owner : Owner)
    (node node' : Node) :
    Prod.Lex (· < ·) (· < ·) (e.guardRank n { s.count with owner } node')
      (e.guardRank n s node) := by
  have hcount : s.count.rounds ≤ e.options.divergenceLimit.toNat := by
    simpa [Options.refuses, hg] using hr
  have hrounds : s.count.rounds = min (s.rounds + 1) Site.maxRounds := rfl
  have hpath : ({ s.count with owner } : Site).path.length ≤ n := hs
  unfold guardRank
  rw [if_pos hs, if_pos hpath]
  refine .right _ ?_
  dsimp only
  omega

/-- Within a bound on passes and depth, the guard makes passes end. -/
def guardDescent (hg : e.options.divergenceGuard = true)
    (hl : e.options.divergenceLimit.toNat < Site.maxRounds) (n : Nat) :
    e.Descent (Ledger.within n) where
  Rank := Nat × Nat
  lt := Prod.Lex (· < ·) (· < ·)
  wf := WellFounded.prod_lex wellFounded_lt wellFounded_lt
  rank := e.guardRank n
  budget l := n - l.passes
  budget_le _ h := Nat.sub_le_sub_left h.passes n
  budget_lt hin h := Nat.sub_lt_sub_left (Nat.lt_of_lt_of_le h.passes hin.passes) h.passes
  rank_lt := by
    intro fuel pass site w deed w' hd hp hin
    refine Or.inr fun s hs => ?_
    rcases hd.idle_or_visited with ⟨hrep, hcontent⟩ | ⟨href, key, component, variant, part, hv⟩
    · by_cases hlen : site.path.length ≤ n
      · exact guardRank_deeper hlen (Deed.sites_deeper hrep hs) _ _
      · have hdeep := Deed.sites_deeper hrep hs
        have hsize := hd.size_lt hp hrep (fun f l h => by rw [hcontent f l h]) hs
        unfold guardRank
        rw [if_neg hlen, if_neg (by omega)]
        exact .right _ hsize
    · have hlen := hin.depth _ hv
      cases deed with
      | replaced found left replacement owner =>
        rw [List.mem_singleton.mp hs]
        exact guardRank_count hg hl hlen href owner _ _
      | _ => exact guardRank_deeper hlen (Deed.sites_deeper rfl hs) _ _

/-- With the guard on and a limit below the number up to which rounds are counted, an expansion
ends, with an answer, a failure of a rule or the failure of the guard, exactly if there is a bound
on the passes that it begins and on the depth at which records with a component come up. -/
theorem guard_ends_iff (hg : e.options.divergenceGuard = true)
    (hl : e.options.divergenceLimit.toNat < Site.maxRounds) (nextKey : Key) (memory : σ)
    (root : Node) :
    (∃ x, e.EndsWith nextKey memory root x) ↔
      ∃ n, ∀ fuel, (e.expand fuel nextKey memory root).ledger.Within n := by
  constructor
  · rintro ⟨x, hx⟩
    obtain ⟨n, hn⟩ := x.ledger.exists_within
    exact ⟨n, fun fuel => hn.of_grows (hx.grows fuel)⟩
  · rintro ⟨n, hn⟩
    exact (guardDescent hg hl n).expand_ends hn

end Engine

/-- A record without content of the component `loop`. -/
def Record.loop (key : Key) : Record := { Record.blank with key, component := some "loop" }

/-- An engine whose one rule puts a new loop, wrapped in something, in the place of a loop. Its
guard is on. -/
def Engine.respawning (limit : UInt32) (wrap : Node → Node) : Engine Unit where
  rulebook := (({} : Rulebook Unit).register [⟨"loop", .none, none⟩]
    (.issue (.record (.loop 0)) fun t => .done (some (wrap t)))).1
  options := { divergenceGuard := true, divergenceLimit := limit }

namespace Engine

/-- A loop that is replaced in its place comes up at the root only, and the guard stops it. -/
theorem respawning_stops : (respawning 3 id).options.divergenceGuard = true ∧
    (respawning 3 id).options.divergenceLimit.toNat < Site.maxRounds ∧
    (∀ fuel, ((respawning 3 id).expand fuel 2 () (.record (.loop 1))).ledger.Within 1) ∧
    ∃ x, (respawning 3 id).EndsWith 2 () (.record (.loop 1)) x ∧
      x.answer = .error (.failed (.divergence "loop" 3)) := by
  have hlimit : (respawning 3 id).options.divergenceLimit.toNat < Site.maxRounds := by decide
  have hstop : ((respawning 3 id).expand 5 2 () (.record (.loop 1))).answer =
      .error (.failed (.divergence "loop" 3)) := Expansion.stop?_eq_some (by decide +kernel)
  have hends : ((respawning 3 id).expand 5 2 () (.record (.loop 1))).answer ≠
      .error .exhausted := by
    rw [hstop]
    rintro ⟨⟩
  have hin : ∀ fuel, ((respawning 3 id).expand fuel 2 () (.record (.loop 1))).ledger.Within 1 := by
    intro fuel
    have hfive : ((respawning 3 id).expand 5 2 () (.record (.loop 1))).ledger.Within 1 := by
      decide +kernel
    exact hfive.of_grows ((endsWith_of_answer hends).grows fuel)
  obtain ⟨x, hx⟩ := (guard_ends_iff rfl hlimit 2 () (.record (.loop 1))).mpr ⟨1, hin⟩
  exact ⟨rfl, hlimit, hin, x, hx, (endsWith_of_answer hends).unique hx ▸ hstop⟩

/-! ### Expansions that the guard does not end -/

variable {e : Engine σ}

/-- A pass never ends if its every turn leads to another pass and world of the same kind. -/
theorem runPass_exhausted {Q : Pass → World σ → Prop}
    (h : ∀ run pass w, Q pass w → ∃ site queue next w', pass.queue = site :: queue ∧
      e.step run { pass with queue } site w = (.ok next, w') ∧ Q next w') :
    ∀ (fuel : Nat) {pass : Pass} {w : World σ}, Q pass w →
      ∃ pass' w', Q pass' w' ∧ e.runPass fuel pass w = (.error .exhausted, w')
  | 0, pass, w, hq => ⟨pass, w, hq, rfl⟩
  | fuel + 1, pass, w, hq => by
    obtain ⟨site, queue, next, w', hqueue, hstep, hnext⟩ := h (e.runPass fuel) pass w hq
    rw [runPass, hqueue]
    dsimp only
    rw [Run.bind_apply, hstep]
    exact runPass_exhausted h fuel hnext

/-- The key has been given to a record, and only older records have marks. -/
structure Unmarked (key : Key) (w : World Unit) : Prop where
  given : key < w.nextKey
  older : ∀ x ∈ w.ledger.marks, x.1 < key

theorem respawning_step {limit : UInt32} {wrap : Node → Node}
    (hwrap : ∀ r, (wrap (.record r)).isAbsent = false) (run : Pass → Run Unit Pass) (pass : Pass)
    {site : Site} {key : Key} {w : World Unit}
    (h : pass.tree.at? site.path = some (.record (.loop key))) (hk : Unmarked key w)
    (hr : (respawning limit wrap).options.refuses site.count.rounds = false) :
    ∃ w', (respawning limit wrap).step run pass site w =
        (.ok (pass.replace site.count (.loop key) (wrap (.record (.loop w.nextKey)))
          ⟨some "loop", none⟩), w') ∧
      Unmarked w.nextKey w' ∧
      ∀ n, site.path.length ≤ n → w.ledger.Within n → w'.ledger.Within n := by
  have howner : (respawning limit wrap).resolveOwner (.loop key) site.owner =
      (.loop key, ⟨some "loop", none⟩) := rfl
  have hmatch : (respawning limit wrap).rulebook.resolve "loop" none (Record.loop key).part =
      some (⟨"loop", .none, none⟩, [0]) := rfl
  have hbody : (respawning limit wrap).rulebook.body? 0 =
      some (.issue (.record (.loop 0)) fun t => .done (some (wrap t))) := rfl
  have hanswer : replacement? (some (wrap (.record (.loop w.nextKey)))) =
      some (wrap (.record (.loop w.nextKey))) := by simp [replacement?, hwrap]
  let w₁ := arrive pass site (.loop key) ⟨some "loop", none⟩ "loop" w
  let w₂ := (w₁.mark key 0).log (.started pass.number site.count.path key 0 site.count.position)
  let w₃ : World Unit := { w₂ with nextKey := w.nextKey + 1 }
  have hm : (key, 0) ∉ w₁.ledger.marks := fun hm => Nat.lt_irrefl _ (hk.older _ hm)
  have hrun : (respawning limit wrap).runBody run
      (.issue (.record (.loop 0)) fun t => .done (some (wrap t))) site.count.position (.loop key)
      w₂ = (.ok (some (wrap (.record (.loop w.nextKey))),
        { record := .loop key, position := site.count.position, library := {} }), w₃) := rfl
  have hv : (respawning limit wrap).applyRules run pass.number site.count (.loop key) "loop" none
      w₁ = (.ok (.replaced (.loop key) (wrap (.record (.loop w.nextKey)))),
        w₃.log (.replaced pass.number site.count.path key 0)) := by
    unfold applyRules
    rw [hmatch]
    refine (runRules_of_body hm hbody).trans ?_
    rw [Run.bind_apply, hrun]
    unfold proceed
    dsimp only
    rw [hanswer]
    rfl
  refine ⟨_, (Does.replaced h howner rfl hr rfl hv).step_eq, ⟨Nat.lt_succ_self _, ?_⟩,
    fun n hpath hn => ⟨hn.passes, ?_⟩⟩
  · intro x hx
    rcases List.mem_cons.mp hx with rfl | hx
    · exact hk.given
    · exact Nat.lt_trans (hk.older x hx) hk.given
  · intro event hmem
    rcases List.mem_cons.mp hmem with rfl | hmem
    · exact Nat.zero_le n
    rcases List.mem_cons.mp hmem with rfl | hmem
    · exact Nat.zero_le n
    rcases List.mem_cons.mp hmem with rfl | hmem
    · exact hpath
    · exact hn.depth event hmem

/-- Nothing is left of the pass but one site, and at it there is a new loop, maybe in a list. -/
def Unrolls (pass : Pass) (w : World Unit) : Prop :=
  ∃ site key, pass.queue = [site] ∧ Unmarked key w ∧
    (pass.tree.at? site.path = some (.list [.record (.loop key)]) ∨
      site.rounds = 0 ∧ pass.tree.at? site.path = some (.record (.loop key)))

/-- The items of a list count from zero, so a loop that is put into a list over and over never comes
to any limit. -/
theorem unrolls_turn {limit : UInt32} (hl : 1 ≤ limit.toNat) {pass : Pass} {w : World Unit}
    (h : Unrolls pass w) (run : Pass → Run Unit Pass) : ∃ site queue next w',
      pass.queue = site :: queue ∧
        (respawning limit fun t => .list [t]).step run { pass with queue } site w =
          (.ok next, w') ∧ Unrolls next w' := by
  obtain ⟨number, tree, queue, rootKey, rootOnly, formerRoot⟩ := pass
  obtain ⟨site, key, rfl, hk, hlist | ⟨hrounds, hloop⟩⟩ := h
  · have hitem : tree.at? (site.path ++ [.item 0]) = some (.record (.loop key)) := by
      rw [Node.at?_append, hlist]
      rfl
    have hdoes : (respawning limit fun t => .list [t]).Does run
        ⟨number, tree, [], rootKey, rootOnly, formerRoot⟩ site w
        (.opened [.record (.loop key)]) w := .opened hlist
    exact ⟨site, [], _, w, rfl, hdoes.step_eq,
      ⟨site.path ++ [.item 0], .listed 0 1, site.owner, 0⟩, key, rfl, hk, Or.inr ⟨rfl, hitem⟩⟩
  · have hr : (respawning limit fun t => .list [t]).options.refuses site.count.rounds = false := by
      have hcount : site.count.rounds = 1 := by rw [Site.count, hrounds]; rfl
      rw [hcount]
      simp [Options.refuses, respawning, Nat.one_le_iff_ne_zero.mp hl]
    have hwrap : ∀ r, (Node.list [.record r]).isAbsent = false := fun _ => rfl
    obtain ⟨w', hstep, hk', -⟩ := respawning_step hwrap run
      ⟨number, tree, [], rootKey, rootOnly, formerRoot⟩ hloop hk hr
    have hput : (Node.put (.list [.record (.loop w.nextKey)]) site.path tree).at? site.path =
        some (.list [.record (.loop w.nextKey)]) := Node.at?_put_self _ (by rw [hloop]; rfl)
    exact ⟨site, [], _, w', rfl, hstep, _, w.nextKey, rfl, hk', Or.inl hput⟩

/-- The tree of the pass is a new loop that is still to be looked at, and nothing has come up but at
the root. -/
def Spins (pass : Pass) (w : World Unit) : Prop :=
  ∃ site key, pass.queue = [site] ∧ site.path = [] ∧ Unmarked key w ∧
    pass.tree = .record (.loop key) ∧ w.ledger.Within 1

/-- The rounds are only counted up to the largest limit, so that one is never exceeded. -/
theorem spins_turn {pass : Pass} {w : World Unit} (h : Spins pass w) (run : Pass → Run Unit Pass) :
    ∃ site queue next w', pass.queue = site :: queue ∧
      (respawning 4294967295 id).step run { pass with queue } site w = (.ok next, w') ∧
        Spins next w' := by
  obtain ⟨number, tree, queue, rootKey, rootOnly, formerRoot⟩ := pass
  obtain ⟨⟨path, position, owner, rounds⟩, key, rfl, rfl, hk, rfl, hin⟩ := h
  have hr : (respawning 4294967295 id).options.refuses
      (Site.count ⟨[], position, owner, rounds⟩).rounds = false := by
    simp [Options.refuses, respawning, Site.count, Site.maxRounds]
  have hwrap : ∀ r, (id (Node.record r)).isAbsent = false := fun _ => rfl
  obtain ⟨w', hstep, hk', hin'⟩ := respawning_step hwrap run
    ⟨number, .record (.loop key), [], rootKey, rootOnly, formerRoot⟩ (Node.at?_nil _) hk hr
  have hput : Node.put (.record (.loop w.nextKey)) [] (.record (.loop key)) =
      .record (.loop w.nextKey) := Node.put_nil _ _
  exact ⟨_, [], _, w', rfl, hstep, _, w.nextKey, rfl, rfl, hk', hput, hin' 1 (Nat.zero_le 1) hin⟩

/-- The guard does not make every expansion end. An engine that puts a loop into a list over and
over goes on at every number of steps, though its guard is on; and with the largest limit, one that
replaces a loop by another does, too, and never leaves the root or begins a second pass. -/
theorem guard_lets_through :
    (respawning 100 fun t => .list [t]).rulebook.Built ∧
    (respawning 100 fun t => .list [t]).options.divergenceGuard = true ∧
    (∀ fuel, ((respawning 100 fun t => .list [t]).expand fuel 2 () (.record (.loop 1))).answer =
      .error .exhausted) ∧
    (respawning 4294967295 id).options.divergenceGuard = true ∧
    ∀ fuel, ((respawning 4294967295 id).expand fuel 2 () (.record (.loop 1))).answer =
        .error .exhausted ∧
      ((respawning 4294967295 id).expand fuel 2 () (.record (.loop 1))).ledger.Within 1 := by
  have hk : ∀ w : World Unit, w.nextKey = 2 → w.ledger.marks = [] → Unmarked 1 w := by
    intro w hnext hmarks
    exact ⟨by rw [hnext]; decide, by rw [hmarks]; rintro x ⟨⟩⟩
  have hlimit : 1 ≤ (100 : UInt32).toNat := by decide
  refine ⟨.register .empty _ _, rfl, fun fuel => ?_, rfl, fun fuel => ?_⟩
  · have hstart : Unrolls (.start 0 {} false (.record (.loop 1)))
        { nextKey := 2, memory := (), ledger := { passes := 1 } } :=
      ⟨_, 1, rfl, hk _ rfl rfl, Or.inr ⟨rfl, Node.at?_nil _⟩⟩
    obtain ⟨_, w, -, h⟩ :=
      runPass_exhausted (fun run _ _ h => unrolls_turn hlimit h run) fuel hstart
    exact (expand_eq_runPass h).1
  · have hstart : Spins (.start 0 {} false (.record (.loop 1)))
        { nextKey := 2, memory := (), ledger := { passes := 1 } } :=
      ⟨_, 1, rfl, rfl, hk _ rfl rfl, rfl, by decide⟩
    obtain ⟨_, w, ⟨_, _, -, -, -, -, hin⟩, h⟩ :=
      runPass_exhausted (fun run _ _ h => spins_turn h run) fuel hstart
    obtain ⟨ha, hl⟩ := expand_eq_runPass h
    exact ⟨ha, hl ▸ hin⟩

end Engine

end ComponentTree
