import ComponentTree.Proofs.Expansion.AtMostOnce
import ComponentTree.Proofs.Expansion.Fuel
import ComponentTree.Proofs.Expansion.Rules
import Mathlib.Data.ENat.Basic

/-!
Records that replace each other.

A chain is a list of records, with an end or without, in which the rules of each record put the next
one in its place. What the rules of a record do is judged with nothing marked before. In an
expansion the rules of earlier records have been marked, but on other identities, so the rules do
the same there and add to what has been entered into the ledger (`Run.Frames`). Main statement
(`guard_trips`): with the guard on, as many records have their rules run as the limit says, and then
the expansion fails at the next one; a chain that ends by then ends with its last record.
-/

namespace ComponentTree

variable {σ α β : Type}

/-- The pass after a verdict on the record at a site. -/
def Pass.afterVerdict (pass : Pass) (site : Site) (owner : Owner) : Verdict → Pass
  | .kept left => pass.keep site left owner
  | .replaced left tree => pass.replace site.count left tree owner

/-- A record without expandable content stays as it is when it is kept. -/
theorem Pass.keep_of_not_isInner (pass : Pass) (site : Site) {r : Record} (owner : Owner)
    (h : r.content.isInner = false) : pass.keep site r owner = pass.put site.path (.record r) := by
  have hflat : r.content.flattenContent = r.content := by
    cases hc : r.content with
    | list items => rw [hc] at h; cases h
    | _ => rfl
  have hsites : Site.ofContent site.path owner r.content = [] := by
    cases hc : r.content with
    | list items => rw [hc] at h; cases h
    | _ => rw [hc] at h; simp [Site.ofContent, h]
  unfold keep
  split
  · rfl
  · simp only [hflat, hsites, enqueue, List.append_nil]
    cases r
    rfl

/-! ### Rules with nothing before them -/

/-- What the rules of a record at the root make of it, when no record can be run ahead. -/
def Engine.judge (e : Engine σ) (found : Record) (inherited : Owner) : Run σ Verdict :=
  let (record, owner) := e.resolveOwner found inherited
  match record.component with
  | none => return .kept record
  | some component =>
    if record.rendering.stopped then return .kept record
    else e.applyRules (e.runPass 0) 0 ⟨[], .listed 0 1, owner, 0⟩ record component owner.variant

namespace World

/-- The world with nothing marked and nothing entered. -/
def bare (w : World σ) : World σ := { w with ledger := { passes := w.ledger.passes } }

/-- The world with all that is in the ledger coming after what is in another one. -/
def atop (w : World σ) (l : Ledger) : World σ :=
  { w with ledger :=
    { marks := w.ledger.marks ++ l.marks
      passes := w.ledger.passes
      journal := w.ledger.journal ++ l.journal } }

theorem starts_atop (w : World σ) (l : Ledger) :
    (w.atop l).ledger.starts = l.starts ++ w.ledger.starts := by
  simp [atop, Ledger.starts]

end World

namespace Run

/-- The run does the same after all that is in the ledger `l`, and marks rules on one identity
only. -/
structure Frames (l : Ledger) (key : Key) (x : Run σ α) : Prop where
  same : ∀ w : World σ, x (w.atop l) = ((x w).1, (x w).2.atop l)
  marks : ∀ w : World σ, ∀ m ∈ (x w).2.ledger.marks, m.1 = key ∨ m ∈ w.ledger.marks

namespace Frames

variable {l : Ledger} {key : Key}

theorem pure (a : α) : Frames l key (pure a : Run σ α) := ⟨fun _ => rfl, fun _ _ => Or.inr⟩

theorem throw (s : Stop) : Frames l key (throw s : Run σ α) := ⟨fun _ => rfl, fun _ _ => Or.inr⟩

theorem bind {x : Run σ α} {f : α → Run σ β} (h : Frames l key x)
    (hf : ∀ a, Frames l key (f a)) : Frames l key (x >>= f) := by
  refine ⟨fun w => ?_, fun w m hm => ?_⟩
  · rw [bind_apply, bind_apply, h.same w]
    rcases x w with ⟨_ | a, w'⟩
    · rfl
    · exact (hf a).same w'
  · rw [bind_apply] at hm
    have hx := h.marks w
    rcases hw : x w with ⟨_ | a, w'⟩ <;> rw [hw] at hm hx
    · exact hx m hm
    · exact ((hf a).marks w' m hm).elim Or.inl (hx m)

theorem log (event : Event) : Frames l key (log event : Run σ Unit) :=
  ⟨fun _ => rfl, fun _ _ => Or.inr⟩

theorem mark {rule : RuleId} (h : (key, rule) ∉ l.marks) :
    Frames l key (mark key rule : Run σ Bool) := by
  refine ⟨fun w => ?_, fun w m hm => ?_⟩
  · have hiff : (key, rule) ∈ (w.atop l).ledger.marks ↔ (key, rule) ∈ w.ledger.marks := by
      simp [World.atop, h]
    rw [mark_apply, mark_apply]
    simp only [hiff]
    split <;> rfl
  · rw [mark_apply] at hm
    split at hm
    · exact Or.inr hm
    · exact (List.mem_cons.mp hm).imp (fun heq => congrArg Prod.fst heq) id

end Frames

end Run

variable {e : Engine σ} {l : Ledger} {key : Key}

theorem RuleM.exec_frames {idPrefix : String} (body : RuleM σ α) :
    ∀ c, Run.Frames l key (body.exec idPrefix (e.runPass 0) c) := by
  induction body with
  | done a => exact fun c => .pure _
  | fail f => exact fun c => .throw _
  | look next ih => exact fun c => ih c c
  | write x next ih => exact fun c => ih _
  | generateId next ih =>
    exact fun c => Run.Frames.bind ⟨fun _ => rfl, fun _ _ => Or.inr⟩ fun id => ih id c
  | issue tree next ih =>
    exact fun c => Run.Frames.bind ⟨fun _ => rfl, fun _ _ => Or.inr⟩ fun t => ih t c
  | runAhead next ih =>
    -- the pass that is asked for has no steps
    intro c
    have hcut : ∀ w : World σ, (RuleM.runAhead next).exec idPrefix (e.runPass 0) c w =
        (.error .exhausted, { w with ledger := { w.ledger with passes := w.ledger.passes + 1 } }) :=
      fun w => exec_runAhead next c w
    refine ⟨fun w => ?_, fun w m hm => ?_⟩
    · rw [hcut, hcut]
      rfl
    · rw [hcut] at hm
      exact Or.inr hm
  | «recall» next ih =>
    exact fun c => ⟨fun w => (ih w.memory c).same w, fun w => (ih w.memory c).marks w⟩
  | remember memory next ih =>
    exact fun c => Run.Frames.bind ⟨fun _ => rfl, fun _ _ => Or.inr⟩ fun _ => ih c

namespace Engine

theorem runRules_frames {pass : Nat} {site : Site} (h : ∀ rule, (key, rule) ∉ l.marks) :
    ∀ (rules : List RuleId) (r : Record),
      Run.Frames l key (e.runRules (e.runPass 0) pass site key rules r)
  | [], r => .pure _
  | rule :: rest, r => by
    unfold runRules
    refine .bind (.mark (h rule)) fun fresh => ?_
    cases fresh with
    | false => exact runRules_frames h rest r
    | true =>
      simp only [if_true]
      cases e.rulebook.body? rule with
      | none => exact runRules_frames h rest r
      | some body =>
        refine .bind (.log _) fun _ => .bind (body.exec_frames _) fun x => ?_
        obtain ⟨answer, c⟩ := x
        dsimp only
        cases replacement? answer with
        | some tree => exact .bind (.log _) fun _ => .pure _
        | none =>
          dsimp only
          split
          · exact .pure _
          · exact runRules_frames h rest c.record

theorem resolveOwner_found_key {found r : Record} {inherited owner : Owner}
    (h : e.resolveOwner found inherited = (r, owner)) : r.key = found.key := by
  have hkey := e.resolveOwner_key found inherited
  rwa [h] at hkey

/-- The rules of a record do the same after all that is in a ledger without marks on it. -/
theorem judge_frames {found : Record} (h : ∀ rule, (found.key, rule) ∉ l.marks)
    (inherited : Owner) : Run.Frames l found.key (e.judge found inherited) := by
  unfold judge
  rcases hr : e.resolveOwner found inherited with ⟨r, owner⟩
  have hkey := resolveOwner_found_key hr
  dsimp only
  split
  · exact .pure _
  split
  · exact .pure _
  · unfold applyRules
    split
    · exact .pure _
    · rw [hkey]
      exact runRules_frames h _ _

/-- Of a site, rules are given the path and the position. -/
theorem runRules_site {run : Pass → Run σ Pass} {pass : Nat} {site site' : Site}
    (hpath : site.path = site'.path) (hposition : site.position = site'.position) :
    ∀ (rules : List RuleId) (r : Record), e.runRules run pass site key rules r =
      e.runRules run pass site' key rules r
  | [], _ => rfl
  | rule :: rest, r => by
    unfold runRules
    simp only [hpath, hposition, runRules_site hpath hposition rest]

/-- What is entered when a record of the given owner comes up at the root. -/
def arrival (r : Record) (owner : Owner) (component : String) : Event :=
  .visited 0 [] r.key component owner.variant r.part

/-- A visit of a record at the root does what its rules do with nothing before them, if nothing is
marked on it. -/
theorem visit_eq_judge (pass : Pass) (site : Site) {found r : Record} {inherited owner : Owner}
    {component : String} {w w₁ : World σ} {v : Verdict}
    (hr : e.resolveOwner found inherited = (r, owner)) (hc : r.component = some component)
    (hj : e.judge found inherited w = (.ok v, w₁)) (hw : w.ledger.journal = [])
    (hm : ∀ rule, (found.key, rule) ∉ l.marks) (hnumber : pass.number = 0) (hpath : site.path = [])
    (hposition : site.position = .listed 0 1) (howner : site.owner = inherited)
    (hg : e.options.refuses site.count.rounds = false) (fuel : Nat) :
    e.visit (e.runPass fuel) pass site found (w.atop l) =
      (.ok (pass.afterVerdict site owner v),
        w₁.atop { l with journal := arrival r owner component :: l.journal }) := by
  let l' : Ledger := { l with journal := arrival r owner component :: l.journal }
  have harrive : arrive pass site r owner component (w.atop l) = w.atop l' := by
    simp [arrive, World.log, World.atop, hw, hnumber, hpath, arrival, l']
  subst howner
  rw [visit_apply hr, hc]
  simp only [hg, harrive, Bool.false_eq_true, if_false]
  have hjudge : e.judge found site.owner (w.atop l') = (.ok v, w₁.atop l') := by
    rw [(judge_frames (e := e) (l := l') hm site.owner).same w, hj]
  unfold judge at hjudge
  simp only [hr, hc] at hjudge
  cases hs : r.rendering.stopped with
  | true =>
    simp only [hs, if_true] at hjudge ⊢
    obtain ⟨rfl, hw'⟩ := Run.pure_eq_ok hjudge
    rw [hw']
    rfl
  | false =>
    simp only [hs, Bool.false_eq_true, if_false] at hjudge ⊢
    -- with more steps, the rules do the same
    have hmore : e.applyRules (e.runPass fuel) pass.number site.count r component owner.variant
        (w.atop l') = (.ok v, w₁.atop l') := by
      have hsite : e.applyRules (e.runPass 0) pass.number site.count r component owner.variant =
          e.applyRules (e.runPass 0) 0 ⟨[], .listed 0 1, owner, 0⟩ r component owner.variant := by
        unfold applyRules
        rw [hnumber]
        split
        · rfl
        · exact runRules_site hpath hposition _ _
      rw [← hsite] at hjudge
      rcases (Parallel.applyRules (e.runPass_zero_goesOn fuel) pass.number site.count
        (e.alike_goingOn.matchesAlike component owner.variant r.part)).same (w.atop l') with
        hcut | hsame
      · rw [hjudge] at hcut
        cases hcut
      · rw [hsame, hjudge]
    rw [hmore]
    cases v <;> rfl

/-! ### Chains -/

/-- Records that replace each other: the rules of each one, with nothing marked before, put the next
one in its place, and the last one, if there is one, is kept. Each belongs to a component in what
the one before hands down. -/
structure Chain (e : Engine σ) (nextKey : Key) (memory : σ) where
  length : ℕ∞
  record : ℕ → Record
  /-- What is handed down to a record. -/
  inherited : ℕ → Owner
  /-- The record as its rules left it. -/
  left : ℕ → Record
  /-- The world in which the rules of a record are judged. -/
  world : ℕ → World σ
  nonempty : 0 < length
  distinct : ∀ i j : ℕ, i < length → j < length → (record i).key = (record j).key → i = j
  owned : ∀ i : ℕ, i < length → (e.resolveOwner (record i) (inherited i)).1.component.isSome
  inherited_zero : inherited 0 = {}
  world_zero : world 0 = { nextKey, nextId := e.nextId, memory, ledger := { passes := 1 } }
  replaced : ∀ i : ℕ, i + 1 < length → (e.judge (record i) (inherited i) (world i)).1 =
    .ok (.replaced (left i) (.record (record (i + 1))))
  inherited_succ : ∀ i : ℕ, i + 1 < length →
    inherited (i + 1) = (e.resolveOwner (record i) (inherited i)).2
  world_succ : ∀ i : ℕ, i + 1 < length →
    world (i + 1) = (e.judge (record i) (inherited i) (world i)).2.bare
  kept : ∀ i : ℕ, i + 1 = length →
    (e.judge (record i) (inherited i) (world i)).1 = .ok (.kept (left i)) ∧
      (left i).content.isInner = false

namespace Chain

variable {nextKey : Key} {memory : σ} (chain : e.Chain nextKey memory)

/-- A record with its owner filled in. -/
def resolved (i : ℕ) : Record := (e.resolveOwner (chain.record i) (chain.inherited i)).1

/-- The rules that are started on a record, each with the identity of the record. -/
def started (i : ℕ) : List (Key × RuleId) :=
  (e.judge (chain.record i) (chain.inherited i) (chain.world i)).2.ledger.starts

/-- The rules that are started on the first `n` records. -/
def startedUpTo (n : ℕ) : List (Key × RuleId) := (List.range n).flatMap chain.started

/-- The site of a record, which is the root each time. -/
def site (i : ℕ) : Site := ⟨[], .listed 0 1, chain.inherited i, i⟩

/-- The pass that has come to a record and taken its site off the queue. -/
def pass (i : ℕ) (formerRoot : Option Record) : Pass where
  number := 0
  tree := .record (chain.record i)
  queue := []
  rootKey := some (chain.record 0).key
  rootOnly := false
  formerRoot := formerRoot

theorem world_bare {i : ℕ} (h : i < chain.length) :
    (chain.world i).ledger.marks = [] ∧ (chain.world i).ledger.journal = [] := by
  cases i with
  | zero => rw [chain.world_zero]; exact ⟨rfl, rfl⟩
  | succ i => rw [chain.world_succ i (by exact_mod_cast h)]; exact ⟨rfl, rfl⟩

theorem exists_component {i : ℕ} (h : i < chain.length) :
    ∃ component, (chain.resolved i).component = some component :=
  Option.isSome_iff_exists.mp (chain.owned i h)

theorem startedUpTo_succ (n : ℕ) :
    chain.startedUpTo (n + 1) = chain.startedUpTo n ++ chain.started n := by
  simp [startedUpTo, List.range_succ]

/-- The ledger of an expansion that has come to a record: rules were started and marked on the
records before it. -/
structure At (i : ℕ) (l : Ledger) : Prop where
  marks : ∀ m ∈ l.marks, ∃ j < i, m.1 = (chain.record j).key
  starts : l.starts = chain.startedUpTo i

variable {chain} {i : ℕ} {l : Ledger}

/-- Nothing is marked on the record that an expansion has come to. -/
theorem At.not_marked (h : chain.At i l) (hi : i < chain.length) (rule : RuleId) :
    ((chain.record i).key, rule) ∉ l.marks := by
  intro hm
  obtain ⟨j, hj, hkey⟩ := h.marks _ hm
  have hj' : (j : ℕ∞) < chain.length := lt_trans (by exact_mod_cast hj) hi
  exact absurd (chain.distinct i j hi hj' hkey) (by omega)

/-- The ledger after the rules of the record. -/
theorem At.next (h : chain.At i l) (hi : i < chain.length) {w : World σ} {v : Verdict}
    (hj : e.judge (chain.record i) (chain.inherited i) (chain.world i) = (.ok v, w))
    (r : Record) (owner : Owner) (component : String) :
    chain.At (i + 1)
      (w.atop { l with journal := arrival r owner component :: l.journal }).ledger := by
  refine ⟨fun m hm => ?_, ?_⟩
  · rcases List.mem_append.mp hm with hm | hm
    · have hmarks := (judge_frames (e := e) (h.not_marked hi) (chain.inherited i)).marks
        (chain.world i) m
      rw [hj, (chain.world_bare hi).1] at hmarks
      exact ⟨i, Nat.lt_succ_self i, (hmarks hm).resolve_right (List.not_mem_nil)⟩
    · obtain ⟨j, hji, hkey⟩ := h.marks m hm
      exact ⟨j, Nat.lt_succ_of_lt hji, hkey⟩
  · have harrival : ({ l with journal := arrival r owner component :: l.journal } : Ledger).starts =
        l.starts := by simp [Ledger.starts, arrival, Event.start?]
    rw [World.starts_atop, harrival, h.starts, startedUpTo_succ, started, hj]

theorem site_count (hi : i < Site.maxRounds) : (chain.site i).count.rounds = i + 1 :=
  Nat.min_eq_left hi

/-- The step for a record that the guard lets through does what its rules do. -/
theorem At.step (h : chain.At i l) (hi : i < chain.length) (hmax : i < Site.maxRounds)
    (hg : e.options.refuses (i + 1) = false) {w : World σ} {v : Verdict}
    (hj : e.judge (chain.record i) (chain.inherited i) (chain.world i) = (.ok v, w)) :
    ∃ l', chain.At (i + 1) l' ∧ ∀ formerRoot fuel, e.step (e.runPass fuel)
      (chain.pass i formerRoot) (chain.site i) ((chain.world i).atop l) =
        (.ok ((chain.pass i formerRoot).afterVerdict (chain.site i)
          (e.resolveOwner (chain.record i) (chain.inherited i)).2 v), w.bare.atop l') := by
  rcases hr : e.resolveOwner (chain.record i) (chain.inherited i) with ⟨r, owner⟩
  obtain ⟨component, hc⟩ := chain.exists_component hi
  unfold resolved at hc
  rw [hr] at hc
  refine ⟨_, h.next hi hj r owner component, fun formerRoot fuel => ?_⟩
  have hcount : (chain.site i).count.rounds = i + 1 := site_count hmax
  exact visit_eq_judge (chain.pass i formerRoot) (chain.site i) hr hc hj (chain.world_bare hi).2
    (h.not_marked hi) rfl rfl rfl rfl (hcount ▸ hg) fuel

/-- The pass that has come to a record goes on to the next one. -/
theorem At.advance (h : chain.At i l) (hi : i + 1 < chain.length) (hmax : i < Site.maxRounds)
    (hg : e.options.refuses (i + 1) = false) : ∃ l', chain.At (i + 1) l' ∧ ∀ formerRoot,
      ∃ formerRoot', ∀ fuel,
        e.runPass (fuel + 1) ((chain.pass i formerRoot).enqueue [chain.site i])
          ((chain.world i).atop l) =
        e.runPass fuel ((chain.pass (i + 1) formerRoot').enqueue [chain.site (i + 1)])
          ((chain.world (i + 1)).atop l') := by
  have hlt : (i : ℕ∞) < chain.length := lt_of_le_of_lt (by exact_mod_cast Nat.le_succ i) hi
  have hanswer := chain.replaced i hi
  rcases hj : e.judge (chain.record i) (chain.inherited i) (chain.world i) with ⟨x, w⟩
  rw [hj] at hanswer
  dsimp only at hanswer
  subst hanswer
  obtain ⟨l', hat, hstep⟩ := h.step hlt hmax hg hj
  refine ⟨l', hat, fun formerRoot => ⟨((chain.pass i formerRoot).replace (chain.site i).count
    (chain.left i) (.record (chain.record (i + 1)))
    (e.resolveOwner (chain.record i) (chain.inherited i)).2).formerRoot, fun fuel => ?_⟩⟩
  have hsite : { (chain.site i).count with
      owner := (e.resolveOwner (chain.record i) (chain.inherited i)).2 } = chain.site (i + 1) := by
    rw [← chain.inherited_succ i hi]
    exact congrArg (Site.mk [] (.listed 0 1) (chain.inherited (i + 1))) (site_count hmax)
  rw [chain.world_succ i hi, hj, ← hsite]
  exact runPass_goes_on rfl (hstep formerRoot fuel)

/-- The pass that has come to the last record ends when the rules have kept it. -/
theorem At.finish (h : chain.At i l) (hlast : i + 1 = chain.length) (hmax : i < Site.maxRounds)
    (hg : e.options.refuses (i + 1) = false) (formerRoot : Option Record) : ∃ final w,
      e.runPass 2 ((chain.pass i formerRoot).enqueue [chain.site i]) ((chain.world i).atop l) =
        (.ok final, w) ∧
      final.tree = .record (chain.left i) ∧ w.ledger.starts = chain.startedUpTo (i + 1) := by
  have hlt : (i : ℕ∞) < chain.length := hlast ▸ by exact_mod_cast Nat.lt_succ_self i
  obtain ⟨hanswer, hcontent⟩ := chain.kept i hlast
  rcases hj : e.judge (chain.record i) (chain.inherited i) (chain.world i) with ⟨x, w⟩
  rw [hj] at hanswer
  dsimp only at hanswer
  subst hanswer
  obtain ⟨l', hat, hstep⟩ := h.step hlt hmax hg hj
  have hkeep : ∀ formerRoot, (chain.pass i formerRoot).afterVerdict (chain.site i)
      (e.resolveOwner (chain.record i) (chain.inherited i)).2 (.kept (chain.left i)) =
        (chain.pass i formerRoot).put [] (.record (chain.left i)) :=
    fun _ => Pass.keep_of_not_isInner _ _ _ hcontent
  simp only [hkeep] at hstep
  refine ⟨(chain.pass i formerRoot).put [] (.record (chain.left i)), w.bare.atop l',
    (runPass_goes_on rfl (hstep formerRoot 1)).trans (runPass_done rfl 0 _), rfl, ?_⟩
  rw [World.starts_atop, hat.starts]
  exact List.append_nil _

/-- The pass that has come to a record that the guard refuses fails before any rule of the record is
started. -/
theorem At.trip (h : chain.At i l) (hi : i < chain.length) (hmax : i < Site.maxRounds)
    (hg : e.options.refuses (i + 1) = true) (formerRoot : Option Record) : ∃ component w,
      (chain.resolved i).component = some component ∧
      e.runPass 1 ((chain.pass i formerRoot).enqueue [chain.site i]) ((chain.world i).atop l) =
        (.error (.failed (.divergence (Selector.label component (chain.resolved i).part)
          e.options.divergenceLimit)), w) ∧
      w.ledger.starts = chain.startedUpTo i := by
  rcases hr : e.resolveOwner (chain.record i) (chain.inherited i) with ⟨r, owner⟩
  obtain ⟨component, hc⟩ := chain.exists_component hi
  have hresolved : chain.resolved i = r := congrArg Prod.fst hr
  rw [hresolved] at hc ⊢
  have hrefuses : e.options.refuses (chain.site i).count.rounds = true := site_count hmax ▸ hg
  refine ⟨component, arrive (chain.pass i formerRoot) (chain.site i) r owner component
    ((chain.world i).atop l), hc, runPass_stops rfl ?_, ?_⟩
  · change e.visit _ _ _ _ _ = _
    rw [visit_apply hr, hc]
    exact if_pos hrefuses
  · unfold arrive
    rw [World.starts_log_of_none _ rfl, World.starts_atop, h.starts]
    simp [Ledger.starts, (chain.world_bare hi).2]

variable (chain) in
/-- With the guard on, an expansion comes to every record up to the one after the limit. -/
theorem reach (hmax : e.options.divergenceLimit.toNat < Site.maxRounds) : ∀ i : ℕ,
    i < chain.length → i ≤ e.options.divergenceLimit.toNat → ∃ formerRoot l, chain.At i l ∧
      ∀ fuel, e.runPass (fuel + i) (.start 0 {} false (.record (chain.record 0)))
          { nextKey, nextId := e.nextId, memory, ledger := { passes := 1 } } =
        e.runPass fuel ((chain.pass i formerRoot).enqueue [chain.site i])
          ((chain.world i).atop l)
  | 0, _, _ => by
    refine ⟨none, {}, ⟨List.forall_mem_nil _, rfl⟩, fun fuel => ?_⟩
    have hsite : chain.site 0 = ⟨[], .listed 0 1, {}, 0⟩ :=
      congrArg (fun owner => Site.mk [] (.listed 0 1) owner 0) chain.inherited_zero
    rw [hsite, chain.world_zero]
    rfl
  | i + 1, hi, hl => by
    have hlt : (i : ℕ∞) < chain.length := lt_of_le_of_lt (by exact_mod_cast Nat.le_succ i) hi
    obtain ⟨formerRoot, l, hat, hrun⟩ := reach hmax i hlt (by omega)
    obtain ⟨l', hat', hadvance⟩ := hat.advance (by exact_mod_cast hi) (by omega)
      (Options.refuses_of_le hl)
    obtain ⟨formerRoot', hnext⟩ := hadvance formerRoot
    refine ⟨formerRoot', l', hat', fun fuel => ?_⟩
    rw [← hnext, ← hrun, Nat.add_right_comm fuel 1 i, Nat.add_assoc]

end Chain

variable {nextKey : Key} {memory : σ}

/-- With the guard on, of a chain exactly as many records have their rules run as the limit says. A
chain that ends by then is expanded to its last record, as the rules leave it; otherwise the
expansion fails at the next record, in what was handed down to it. -/
theorem guard_trips (chain : e.Chain nextKey memory)
    (hguard : e.options.divergenceGuard = true)
    (hmax : e.options.divergenceLimit.toNat < Site.maxRounds) :
    (∀ i : ℕ, i + 1 = chain.length → i + 1 ≤ e.options.divergenceLimit.toNat →
      ∃ x, e.EndsWith nextKey memory (.record (chain.record 0)) x ∧
        x.answer = .ok (.record (chain.left i)) ∧
        x.ledger.starts = chain.startedUpTo (i + 1)) ∧
    ((e.options.divergenceLimit.toNat : ℕ∞) < chain.length →
      ∃ x component, e.EndsWith nextKey memory (.record (chain.record 0)) x ∧
        (chain.resolved e.options.divergenceLimit.toNat).component = some component ∧
        x.answer = .error (.failed (.divergence
          (Selector.label component (chain.resolved e.options.divergenceLimit.toNat).part)
          e.options.divergenceLimit)) ∧
        x.ledger.starts = chain.startedUpTo e.options.divergenceLimit.toNat) := by
  constructor
  · intro i hlast hi
    have hlt : (i : ℕ∞) < chain.length := hlast ▸ by exact_mod_cast Nat.lt_succ_self i
    obtain ⟨formerRoot, l, hat, hrun⟩ := chain.reach hmax i hlt (by omega)
    obtain ⟨final, w, hfinish, htree, hstarts⟩ :=
      hat.finish hlast (by omega) (Options.refuses_of_le hi) formerRoot
    obtain ⟨x, hx, hanswer, hledger⟩ :=
      endsWith_of_runPass ((hrun 2).trans hfinish) (by rintro ⟨⟩)
    exact ⟨x, hx, hanswer.trans (congrArg Except.ok htree), hledger ▸ hstarts⟩
  · intro hlt
    have hg : e.options.refuses (e.options.divergenceLimit.toNat + 1) = true := by
      simp [Options.refuses, hguard]
    obtain ⟨formerRoot, l, hat, hrun⟩ := chain.reach hmax _ hlt (Nat.le_refl _)
    obtain ⟨component, w, hc, htrip, hstarts⟩ := hat.trip hlt hmax hg formerRoot
    obtain ⟨x, hx, hanswer, hledger⟩ :=
      endsWith_of_runPass ((hrun 1).trans htrip) (by rintro ⟨⟩)
    exact ⟨x, component, hx, hc, hanswer, hledger ▸ hstarts⟩

/-- An engine that puts the body of a card in its place, and lets the rules go through a place
once. -/
def opening : Engine Unit :=
  ((({ options := { divergenceGuard := true, divergenceLimit := 1 } } : Engine Unit).register
    [⟨"card", .none, none⟩]
      (.done (some (.record { Record.blank with key := 2, part := some "body" })))).1.register
    [⟨"card", .none, some "body"⟩] (.write (.tag "p") (.done none))).1

/-- A card and its body. -/
def opening.chain : opening.Chain 3 () where
  length := (2 : ℕ)
  record
    | 0 => { Record.blank with key := 1, component := some "card" }
    | _ => { Record.blank with key := 2, part := some "body" }
  inherited
    | 0 => {}
    | _ => ⟨some "card", none⟩
  left
    | 0 => { Record.blank with key := 1, component := some "card" }
    | _ => { Record.blank with
      key := 2, component := some "card", part := some "body", rendering := { tag := some "p" } }
  world _ := { nextKey := 3, memory := (), ledger := { passes := 1 } }
  nonempty := by decide
  distinct i j hi hj h := by
    have hi' : i < 2 := by exact_mod_cast hi
    have hj' : j < 2 := by exact_mod_cast hj
    obtain rfl | rfl : i = 0 ∨ i = 1 := by omega
    all_goals obtain rfl | rfl : j = 0 ∨ j = 1 := by omega
    all_goals first | rfl | cases h
  owned i hi := by
    have hi' : i < 2 := by exact_mod_cast hi
    obtain rfl | rfl : i = 0 ∨ i = 1 := by omega
    all_goals rfl
  inherited_zero := rfl
  world_zero := rfl
  replaced i hi := by
    have hi' : i + 1 < 2 := by exact_mod_cast hi
    obtain rfl : i = 0 := by omega
    rfl
  inherited_succ i hi := by
    have hi' : i + 1 < 2 := by exact_mod_cast hi
    obtain rfl : i = 0 := by omega
    rfl
  world_succ i hi := by
    have hi' : i + 1 < 2 := by exact_mod_cast hi
    obtain rfl : i = 0 := by omega
    rfl
  kept i hi := by
    have hi' : i + 1 = 2 := by exact_mod_cast hi
    obtain rfl : i = 1 := by omega
    exact ⟨rfl, rfl⟩

/-- The guard trips at the body, whose component is that of the card, after the rule of the card. -/
theorem guard_trips_opening : ∃ x : Expansion Unit,
    opening.EndsWith 3 () (.record { Record.blank with key := 1, component := some "card" }) x ∧
      x.answer = .error (.failed (.divergence "card__body" 1)) ∧ x.ledger.starts = [(1, 0)] := by
  have htrips := guard_trips opening.chain rfl (by decide)
  obtain ⟨x, component, hends, hc, hanswer, hstarts⟩ := htrips.2 (by decide)
  obtain rfl : "card" = component := Option.some.inj hc
  exact ⟨x, hends, hanswer, hstarts⟩

end Engine

end ComponentTree
