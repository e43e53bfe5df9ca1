import ComponentTree.Proofs.Expansion.Rules

/-!
The queue of a pass.

Sites are paths into a tree that is rewritten while they wait. What keeps them good is that no
queued path leads through another one: a deed changes the tree at its own site only, so the other
sites still lead to the nodes that they were queued for. Main statement (`worklist_sound`): at every
turn of every pass the queued paths are apart and lead somewhere, a turn leaves the other sites and
their nodes as they are, and at the end every record was kept where it stands, in the last look at
that place.
-/

namespace ComponentTree

variable {σ : Type}

/-- The queued paths are apart from each other, and each leads to a node of the tree. -/
structure Pass.Sound (pass : Pass) : Prop where
  apart : pass.queue.Pairwise fun s t => Path.Apart s.path t.path
  present : ∀ s ∈ pass.queue, (pass.tree.at? s.path).isSome

/-- From `pass` to `next` nothing happens to the sites of `queue` and their nodes. -/
def Pass.Spares (pass next : Pass) (queue : List Site) : Prop :=
  ∀ s ∈ queue, s ∈ next.queue ∧ next.tree.at? s.path = pass.tree.at? s.path

/-- In the last look at a place a record was found and kept there, and as it was left it has stayed
but for its content. -/
def LastKept (turns : List Turn) (path : Path) (r : Record) : Prop :=
  ∃ later site found left owner earlier,
    turns = later ++ ⟨site, .kept found left owner⟩ :: earlier ∧ site.path = path ∧
      found.key = r.key ∧ r = { left with content := r.content } ∧ ∀ t ∈ later, t.site.path ≠ path

/-- Some queued path leads to a place or to what it is part of. -/
def Pass.Covers (pass : Pass) (path : Path) : Prop := ∃ s ∈ pass.queue, s.path <+: path

/-- A record with other content than `r` is still the one that was kept. -/
theorem LastKept.of_content {turns : List Turn} {path : Path} {r r' : Record}
    (h : LastKept turns path r) (hr : r' = { r with content := r'.content }) :
    LastKept turns path r' := by
  obtain ⟨later, site, found, left, owner, earlier, ht, hp, hk, hl, hlast⟩ := h
  exact ⟨later, site, found, left, owner, earlier, ht, hp, by rw [hr, hk], by rw [hr, hl], hlast⟩

/-- Looks at other places change nothing about the last look at a place. -/
theorem LastKept.cons {turns : List Turn} {path : Path} {r : Record} (h : LastKept turns path r)
    {turn : Turn} (ht : turn.site.path ≠ path) : LastKept (turn :: turns) path r := by
  obtain ⟨later, site, found, left, owner, earlier, rfl, hp, hk, hl, hlast⟩ := h
  exact ⟨turn :: later, site, found, left, owner, earlier, rfl, hp, hk, hl,
    by simpa [ht] using hlast⟩

namespace Pass

variable {e : Engine σ} {run : Pass → Run σ Pass} {pass : Pass} {site : Site} {queue : List Site}
  {deed : Deed} {w w' : World σ}

theorem start_sound (number : Nat) (owner : Owner) (rootOnly : Bool) (root : Node) :
    (start number owner rootOnly root).Sound := by
  refine ⟨List.pairwise_singleton _ _, fun s hs => ?_⟩
  rw [List.mem_singleton.mp hs, Node.at?_nil]
  rfl

/-- The site at the front is apart from the ones behind it. -/
theorem Sound.apart_front (h : pass.Sound) (hq : pass.queue = site :: queue) {s : Site}
    (hs : s ∈ queue) : Path.Apart site.path s.path := by
  have hp := h.apart
  rw [hq, List.pairwise_cons] at hp
  exact hp.1 s hs

theorem Sound.present_front (h : pass.Sound) (hq : pass.queue = site :: queue) :
    (pass.tree.at? site.path).isSome := h.present site (by rw [hq]; exact List.mem_cons_self ..)

theorem Sound.spares (h : pass.Sound) (hq : pass.queue = site :: queue) (deed : Deed) :
    pass.Spares (after { pass with queue } site deed) queue := by
  intro s hs
  refine ⟨?_, after_at?_apart _ _ _ (h.apart_front hq hs)⟩
  rw [after_queue]
  exact List.mem_append_left _ hs

/-- A turn keeps the queue sound. -/
theorem Sound.turn (h : pass.Sound) (hq : pass.queue = site :: queue)
    (hd : e.Does run { pass with queue } site w deed w') :
    (after { pass with queue } site deed).Sound := by
  have hpresent := h.present_front hq
  refine ⟨?_, fun s hs => ?_⟩
  · rw [after_queue, List.pairwise_append]
    refine ⟨?_, deed.sites_pairwise _ _, fun s hs t ht => ?_⟩
    · have hp := h.apart
      rw [hq, List.pairwise_cons] at hp
      exact hp.2
    · -- the new sites lie below the one that was looked at, from which the old ones are apart
      exact (h.apart_front hq hs).symm.of_prefix (Deed.sites_below ht)
  · rw [after_queue, List.mem_append] at hs
    rcases hs with hs | hs
    · rw [(h.spares hq deed s hs).2]
      exact h.present s (by rw [hq]; exact List.mem_cons_of_mem _ hs)
    · exact hd.sites_present hpresent hs

/-- After a turn, a record to which no queued path leads was kept at the site just now, or it was
there before and no queued path led to it then; its content has changed at most where the site is
in it. -/
theorem Sound.record_after (h : pass.Sound) (hq : pass.queue = site :: queue)
    (hd : e.Does run { pass with queue } site w deed w') {path : Path} {r : Record}
    (hs : Path.InScope pass.rootOnly path)
    (hr : (after { pass with queue } site deed).tree.at? path = some (.record r))
    (hn : ¬ (after { pass with queue } site deed).Covers path) :
    (path = site.path ∧ ∃ found left owner, deed = .kept found left owner ∧
      r = left.settledIn pass.rootOnly) ∨
    ¬ pass.Covers path ∧ ∃ r₀, pass.tree.at? path = some (.record r₀) ∧
      r = { r₀ with content := r.content } ∧ (r.content = r₀.content ∨ ∃ rest node,
        site.path = path ++ .content :: rest ∧ deed.leaves?.isSome ∧
          deed.node? pass.rootOnly = some node ∧ r.content = Node.put node rest r₀.content) := by
  -- a queued path that led to a place which the site does not lead to is still queued
  have elsewhere : ¬ site.path <+: path → ¬ pass.Covers path := by
    rintro hsite ⟨s, hmem, hp⟩
    rw [hq] at hmem
    rcases List.mem_cons.mp hmem with rfl | hmem
    · exact hsite hp
    · exact hn ⟨s, (h.spares hq deed s hmem).1, hp⟩
  rcases Path.through_or_above_or_apart site.path path with ⟨q, rfl⟩ | ⟨q, hne, hp⟩ | ha
  · left
    have hsq : Path.InScope pass.rootOnly q := fun hro hmem => hs hro (List.mem_append_right _ hmem)
    rcases hd.record_covered (h.present_front hq) hsq hr with
      ⟨s, hmem, hp⟩ | ⟨rfl, hkept⟩
    · exact absurd ⟨s, by rw [after_queue]; exact List.mem_append_right _ hmem, hp⟩ hn
    · exact ⟨List.append_nil _, hkept⟩
  · right
    have hsite : ¬ site.path <+: path := by
      intro hpre
      have hlen := hpre.length_le
      rw [hp, List.length_append] at hlen
      exact hne (List.eq_nil_of_length_eq_zero (by omega))
    obtain ⟨r₀, h₀, hr₀, hcontent⟩ := record_above_after { pass with queue } site deed hp hne hr
    refine ⟨elsewhere hsite, r₀, h₀, hr₀, hcontent.imp id ?_⟩
    rintro ⟨rest, node, rfl, hput⟩
    exact ⟨rest, node, hp, hput⟩
  · rw [after_at?_apart _ _ _ ha] at hr
    exact Or.inr ⟨elsewhere ha.1, r, hr, by cases r; rfl, Or.inl rfl⟩

/-- Once a place is covered, a turn keeps it covered or kept in its last look. -/
theorem covered_or_kept_turn {fuel : Nat} (h : pass.Sound) (hq : pass.queue = site :: queue)
    (hd : e.Does (e.runPass fuel) { pass with queue } site w deed w') {turns : List Turn}
    (hc : ∀ path r, Path.InScope pass.rootOnly path → pass.tree.at? path = some (.record r) →
      pass.Covers path ∨ LastKept turns path r) {path : Path} {r : Record}
    (hs : Path.InScope pass.rootOnly path)
    (hr : (after { pass with queue } site deed).tree.at? path = some (.record r)) :
    (after { pass with queue } site deed).Covers path ∨
      LastKept (⟨site, deed⟩ :: turns) path r := by
  by_cases hn : (after { pass with queue } site deed).Covers path
  · exact Or.inl hn
  right
  rcases h.record_after hq hd hs hr hn with
    ⟨rfl, found, left, owner, rfl, rfl⟩ | ⟨hcovers, r₀, h₀, hr₀, -⟩
  · refine ⟨[], site, found, left, owner, turns, rfl, rfl, ?_, left.settledIn_eq _, by simp⟩
    rw [left.settledIn_eq, hd.key rfl]
  · refine (((hc path r₀ hs h₀).resolve_left hcovers).of_content hr₀).cons fun hp => hcovers ?_
    exact ⟨site, by rw [hq]; exact List.mem_cons_self .., hp ▸ List.prefix_rfl⟩

end Pass

namespace Engine.Reaches

variable {e : Engine σ} {limit number : Nat} {owner : Owner} {rootOnly : Bool} {root : Node}
  {pass : Pass} {w₀ w : World σ} {turns : List Turn}

theorem sound (h : e.Reaches limit (.start number owner rootOnly root) w₀ turns pass w) :
    pass.Sound := by
  induction h with
  | start => exact Pass.start_sound number owner rootOnly root
  | turn _ hq _ hd ih => exact ih.turn hq hd

/-- In scope, every record is covered by the queue or was kept in the last look at its place. -/
theorem covered_or_kept (h : e.Reaches limit (.start number owner rootOnly root) w₀ turns pass w) :
    ∀ path r, Path.InScope rootOnly path → pass.tree.at? path = some (.record r) →
      pass.Covers path ∨ LastKept turns path r := by
  induction h with
  | start =>
    exact fun path _ _ _ => Or.inl ⟨_, List.mem_singleton_self _, List.nil_prefix⟩
  | turn hreach hq _ hd ih =>
    have hro := hreach.rootOnly_eq
    intro path r hs hr
    refine Pass.covered_or_kept_turn hreach.sound hq hd (fun path r hs => ih path r ?_) ?_ hr
    · rwa [hro] at hs
    · rwa [hro]

/-- When the queue is empty, every record in scope was kept in the last look at its place. -/
theorem kept_of_done (h : e.Reaches limit (.start number owner rootOnly root) w₀ turns pass w)
    (hq : pass.queue = []) {path : Path} {r : Record} (hs : Path.InScope rootOnly path)
    (hr : pass.tree.at? path = some (.record r)) : LastKept turns path r := by
  rcases h.covered_or_kept path r hs hr with ⟨s, hmem, -⟩ | hk
  · rw [hq] at hmem; cases hmem
  · exact hk

end Engine.Reaches

/-- The queue of a pass is sound at every turn of every pass, for a whole tree or for a record
alone: the queued paths are apart and lead somewhere, so the site at the front is never missed, and
a step leaves the other queued sites and the nodes at them as they are. A pass over a whole tree
that has an answer has kept every record in it, in the last look at the place of the record. -/
theorem Engine.worklist_sound (e : Engine σ) (limit number : Nat) (owner : Owner) (rootOnly : Bool)
    (root : Node) (w₀ : World σ) :
    (∀ turns pass w, e.Reaches limit (.start number owner rootOnly root) w₀ turns pass w →
      pass.Sound ∧ ∀ site queue, pass.queue = site :: queue →
        (pass.tree.at? site.path).isSome ∧ ∀ fuel next w',
          e.step (e.runPass fuel) { pass with queue } site w = (.ok next, w') →
            pass.Spares next queue) ∧
    ∀ fuel final w, fuel ≤ limit →
      e.runPass fuel (.start number owner rootOnly root) w₀ = (.ok final, w) →
        ∃ turns, e.Reaches limit (.start number owner rootOnly root) w₀ turns final w ∧
          (rootOnly = false → ∀ path r, final.tree.at? path = some (.record r) →
            LastKept turns path r) := by
  constructor
  · intro turns pass w h
    refine ⟨h.sound, fun site queue hq => ⟨h.sound.present_front hq, fun fuel next w' hs => ?_⟩⟩
    obtain ⟨deed, -, rfl⟩ := step_does hs
    exact h.sound.spares hq deed
  · intro fuel final w hf h
    obtain ⟨turns, hr, hq⟩ := runPass_reaches hf .start h
    refine ⟨turns, hr, fun hro path r hp => hr.kept_of_done hq (fun h => ?_) hp⟩
    rw [hro] at h
    cases h

end ComponentTree
