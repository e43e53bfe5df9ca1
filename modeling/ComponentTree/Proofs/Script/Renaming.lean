import ComponentTree.Proofs.Rule.Renaming
import ComponentTree.Script.Semantics

/-!
Scripts are blind to identities.

What a script can ask about its record has nothing to do with identities, and the trees that it
makes are copies with new identities or come from its record or from the memory. So its programs are
renamed to themselves, under any relation between identities, if the memories hold renamed trees
(`Memory.Renamed`): expressions give the same values (`ValueExpr.renamed_eval`) and renamed trees
(`NodeExpr.renamed_eval`). Main statement: the rule that a script makes up is renamed to itself
(`renamed_body`).
-/

namespace ComponentTree.Script

variable {keys : Key → Key → Prop}

/-! ### Memories -/

/-- What the scripts saw is the same but for identities. -/
structure Probe.Renamed (keys : Key → Key → Prop) (p p' : Probe) : Prop where
  fields : p' = { p with content := p'.content, tree := p'.tree }
  content : p.content.Renamed keys p'.content
  tree : p.tree.Renamed keys p'.tree

/-- The entries are the same but for identities. -/
inductive LogEntry.Renamed (keys : Key → Key → Prop) : LogEntry → LogEntry → Prop
  | value (v : Literal) : Renamed keys (.value v) (.value v)
  | probe {p p' : Probe} (h : p.Renamed keys p') : Renamed keys (.probe p) (.probe p')

/-- Trees of the same name are renamed. -/
def RenamedEntry (keys : Key → Key → Prop) (entry entry' : String × Node) : Prop :=
  entry.1 = entry'.1 ∧ entry.2.Renamed keys entry'.2

/-- The memories hold the same but for identities. -/
structure Memory.Renamed (keys : Key → Key → Prop) (m m' : Memory) : Prop where
  saved : List.Forall₂ (RenamedEntry keys) m.saved.entries m'.saved.entries
  log : List.Forall₂ (LogEntry.Renamed keys) m.log m'.log

theorem LogEntry.Renamed.mono {keys' : Key → Key → Prop} (hkeys : ∀ a a', keys a a' → keys' a a')
    {x x' : LogEntry} (h : x.Renamed keys x') : x.Renamed keys' x' := by
  cases h with
  | value v => exact .value v
  | probe h => exact .probe ⟨h.fields, h.content.mono hkeys, h.tree.mono hkeys⟩

theorem Memory.Renamed.mono {keys' : Key → Key → Prop} (hkeys : ∀ a a', keys a a' → keys' a a')
    {m m' : Memory} (h : m.Renamed keys m') : m.Renamed keys' m' :=
  ⟨h.saved.imp fun _ _ hentry => ⟨hentry.1, hentry.2.mono hkeys⟩,
    h.log.imp fun _ _ hentry => hentry.mono hkeys⟩

theorem renamed_find (name : String) {es es' : List (String × Node)}
    (h : List.Forall₂ (RenamedEntry keys) es es') :
    Option.Rel (Node.Renamed keys) (OrderedMap.find name es) (OrderedMap.find name es') := by
  induction h with
  | nil => exact .none
  | cons hentry _ ih =>
    unfold OrderedMap.find
    rw [hentry.1]
    split
    · exact .some hentry.2
    · exact ih

theorem renamed_place (name : String) {t t' : Node} (ht : t.Renamed keys t')
    {es es' : List (String × Node)} (h : List.Forall₂ (RenamedEntry keys) es es') :
    List.Forall₂ (RenamedEntry keys) (OrderedMap.place name t es)
      (OrderedMap.place name t' es') := by
  induction h with
  | nil => exact .cons ⟨rfl, ht⟩ .nil
  | cons hentry hrest ih =>
    unfold OrderedMap.place
    rw [hentry.1]
    split
    · exact .cons ⟨rfl, ht⟩ hrest
    · exact .cons hentry ih

theorem renamed_erase (name : String) {es es' : List (String × Node)}
    (h : List.Forall₂ (RenamedEntry keys) es es') :
    List.Forall₂ (RenamedEntry keys) (es.filter fun e => e.1 ≠ name)
      (es'.filter fun e => e.1 ≠ name) := by
  refine List.rel_filter (fun e e' he => ?_) h
  dsimp only
  rw [he.1]

/-! ### Values -/

/-- Identities that are related as given, memories that hold the same but for these, and the same
identifiers. -/
def sides (keys : Key → Key → Prop) : Renaming Memory := ⟨keys, Memory.Renamed keys, True⟩

variable {α α' β' : Type}

/-- A program that gives the same answer on both sides goes on in the same way. -/
theorem bind_same {x : Program α} {f : α → Program α'} {f' : α → Program β'} {S : α' → β' → Prop}
    (hx : x.Renamed (sides keys) Eq x) (hf : ∀ a, (f a).Renamed (sides keys) S (f' a)) :
    (x >>= f).Renamed (sides keys) S (x >>= f') :=
  hx.bind fun a _ ha => ha ▸ hf a

theorem scalarText_of_renamed {n n' : Node} (h : n.Renamed keys n') :
    n.scalarText = n'.scalarText := by
  rcases h.cases with ⟨_, _, rfl, rfl, -⟩ | ⟨_, _, rfl, rfl, -⟩ | ⟨rfl, -⟩ <;> rfl

/-- What a script can ask about its record has nothing to do with identities. -/
theorem answer_of_renamed (query : Query) {c c' : Context} (h : c.Renamed keys c') :
    query.answer c = query.answer c' := by
  cases query <;>
    simp only [Query.answer, Context.autoInit, Context.param?, Context.initOption?, h.position,
    h.library, h.record.component_eq, h.record.part_eq, h.record.variant_eq, h.record.params_eq,
    h.record.rendering_eq, h.record.mixins.length_eq, scalarText_of_renamed h.record.content]

theorem renamed_lookupString (keyset : String) {key options : Program Literal}
    (hkey : key.Renamed (sides keys) Eq key) (hoptions : options.Renamed (sides keys) Eq options) :
    (lookupString keyset key options).Renamed (sides keys) Eq
      (lookupString keyset key options) := by
  refine RuleM.renamed_context.bind fun c c' hc => ?_
  rw [hc.library]
  split
  · exact .fail _
  · refine bind_same hkey fun key => bind_same hoptions fun options => ?_
    split
    · exact .pure rfl
    · exact .fail _

mutual

/-- An expression gives the same value on both sides. -/
theorem ValueExpr.renamed_eval : ∀ x : ValueExpr, x.eval.Renamed (sides keys) Eq x.eval
  | .lit v => by
    rw [ValueExpr.eval]
    exact .pure rfl
  | .concat parts => by
    rw [ValueExpr.eval]
    exact bind_same (ValueExpr.renamed_evalAll parts) fun _ => .pure rfl
  | .add x n => by
    rw [ValueExpr.eval]
    exact bind_same (ValueExpr.renamed_eval x) fun _ => .pure rfl
  | .eq x y | .lt x y => by
    rw [ValueExpr.eval]
    exact bind_same (ValueExpr.renamed_eval x) fun _ =>
      bind_same (ValueExpr.renamed_eval y) fun _ => .pure rfl
  | .not x | .escape x => by
    rw [ValueExpr.eval]
    exact bind_same (ValueExpr.renamed_eval x) fun _ => .pure rfl
  | .ask query => by
    rw [ValueExpr.eval]
    exact RuleM.renamed_context.bind fun _ _ hc => .pure (answer_of_renamed query hc)
  | .freshId => by
    rw [ValueExpr.eval]
    exact bind_same (RuleM.renamed_freshId trivial) fun _ => .pure rfl
  | .lookup keyset key options => by
    rw [ValueExpr.eval]
    exact renamed_lookupString keyset (ValueExpr.renamed_eval key) (ValueExpr.renamed_eval options)

theorem ValueExpr.renamed_evalAll : ∀ xs : List ValueExpr,
    (ValueExpr.evalAll xs).Renamed (sides keys) Eq (ValueExpr.evalAll xs)
  | [] => by
    rw [ValueExpr.evalAll]
    exact .pure rfl
  | x :: xs => by
    rw [ValueExpr.evalAll]
    exact bind_same (ValueExpr.renamed_eval x) fun _ =>
      bind_same (ValueExpr.renamed_evalAll xs) fun _ => .pure rfl

end

theorem renamed_evalEntries : ∀ entries : List (String × ValueExpr),
    (evalEntries entries).Renamed (sides keys) Eq (evalEntries entries)
  | [] => by
    rw [evalEntries]
    exact .pure rfl
  | (name, x) :: rest => by
    rw [evalEntries]
    exact bind_same x.renamed_eval fun _ => bind_same (renamed_evalEntries rest) fun _ => .pure rfl

/-! ### Trees -/

/-- Nothing is known of a new record but its identity. -/
theorem renamed_freshRecord :
    (freshRecord : Program Record).Renamed (sides keys) (Record.Renamed keys) freshRecord := by
  refine (RuleM.renamed_fresh rfl).bind fun copy copy' hcopy => .pure ?_
  obtain ⟨hblank, hcopy⟩ := hcopy
  rcases hcopy.cases with ⟨_, _, rfl, -⟩ | ⟨_, _, rfl, rfl, hr⟩ | ⟨rfl, hn⟩
  · cases hblank
  · exact hr
  · cases copy <;> first | cases hblank | cases hn

theorem Fields.renamed_eval (f : Fields) :
    f.eval.Renamed (sides keys) (Record.Renamed keys) f.eval := by
  unfold Fields.eval
  refine renamed_freshRecord.bind fun r r' hr => ?_
  refine bind_same f.component.renamed_eval fun component => ?_
  refine bind_same f.part.renamed_eval fun part => ?_
  refine bind_same f.variant.renamed_eval fun variant => ?_
  refine bind_same (renamed_evalEntries f.params) fun params => ?_
  refine bind_same f.tag.renamed_eval fun tag => ?_
  refine bind_same (renamed_evalEntries f.attrs) fun attrs => ?_
  refine bind_same (renamed_evalEntries f.state) fun state => ?_
  dsimp only
  split
  · rename_i entries _
    have hoptions : (some <$> evalEntries entries).Renamed (sides keys) Eq
        (some <$> evalEntries entries) :=
      bind_same (renamed_evalEntries entries) fun _ => .pure rfl
    exact bind_same hoptions fun _ => .pure { hr with fields := by rw [hr.fields] }
  · exact .pure { hr with fields := by rw [hr.fields] }

theorem Wrapper.renamed_wrap {t t' : Node} (ht : t.Renamed keys t') (w : Wrapper) :
    (w.wrap t).Renamed (sides keys) (Node.Renamed keys) (w.wrap t') := by
  have hlist : (Node.list [t]).Renamed keys (.list [t']) :=
    Node.renamed_list.mpr (.cons ht .nil)
  cases w with
  | list => exact .pure hlist
  | element =>
    exact renamed_freshRecord.bind fun r r' hr => .pure (Node.renamed_record.mpr
      { hr with fields := by rw [hr.fields], content := ht })
  | part name =>
    exact renamed_freshRecord.bind fun r r' hr => .pure (Node.renamed_record.mpr
      { hr with fields := by rw [hr.fields], content := hlist })
  | component name =>
    exact renamed_freshRecord.bind fun r r' hr => .pure (Node.renamed_record.mpr
      { hr with fields := by rw [hr.fields], content := ht })

theorem Wrapper.renamed_wrapTimes (w : Wrapper) : ∀ (n : Nat) {t t' : Node}, t.Renamed keys t' →
    (w.wrapTimes n t).Renamed (sides keys) (Node.Renamed keys) (w.wrapTimes n t')
  | 0, _, _, ht => .pure ht
  | n + 1, _, _, ht => (w.renamed_wrap ht).bind fun _ _ ht => w.renamed_wrapTimes n ht

theorem renamed_absent : Node.absent.Renamed keys .absent := ⟨rfl, .nil⟩

/-- A copy with new identities of what is the same without them. -/
theorem renamed_copy {t t' : Node} (hsame : t.anonymous = t'.anonymous) :
    (RuleM.fresh t : Program Node).Renamed (sides keys) (Node.Renamed keys) (RuleM.fresh t') :=
  (RuleM.renamed_fresh hsame).imp fun _ _ h => h.2

theorem renamed_useSaved (name : String) (use : Use) :
    (useSaved name use).Renamed (sides keys) (Node.Renamed keys) (useSaved name use) := by
  refine RuleM.renamed_memory.bind fun m m' hm => ?_
  have htree : ((m.saved.get? name).getD .absent).Renamed keys
      ((m'.saved.get? name).getD .absent) :=
    rel_getD (renamed_find name hm.saved) renamed_absent
  cases use with
  | take =>
    refine (RuleM.renamed_modifyMemory fun m m' hm => ?_).bind fun _ _ _ => .pure htree
    exact { hm with saved := renamed_erase name hm.saved }
  | snapshot =>
    dsimp only
    rw [Node.snapshot_eq, Node.snapshot_eq]
    exact .pure htree
  | clone => exact renamed_copy htree.same

theorem renamed_times {program : Program Node}
    (h : program.Renamed (sides keys) (Node.Renamed keys) program) : ∀ n : Nat,
      (times program n).Renamed (sides keys) (List.Forall₂ (Node.Renamed keys)) (times program n)
  | 0 => .pure .nil
  | n + 1 => h.bind fun _ _ ht => (renamed_times h n).bind fun _ _ hts => .pure (.cons ht hts)

mutual

/-- An expression gives renamed trees. -/
theorem NodeExpr.renamed_eval : ∀ x : NodeExpr,
    x.eval.Renamed (sides keys) (Node.Renamed keys) x.eval
  | .lit v => by
    rw [NodeExpr.eval]
    exact renamed_copy rfl
  | .value x => by
    rw [NodeExpr.eval]
    exact bind_same x.renamed_eval fun _ => renamed_copy rfl
  | .text x => by
    rw [NodeExpr.eval]
    exact bind_same x.renamed_eval fun _ => .pure ⟨rfl, .nil⟩
  | .bool b | .number b => by
    rw [NodeExpr.eval]
    exact .pure ⟨rfl, .nil⟩
  | .component name | .part name | .element => by
    rw [NodeExpr.eval]
    exact renamed_freshRecord.bind fun _ _ hr => .pure (Node.renamed_record.mpr
      { hr with fields := by rw [hr.fields] })
  | .record fields inside layered => by
    rw [NodeExpr.eval]
    exact fields.renamed_eval.bind fun _ _ hr =>
      (NodeExpr.renamed_eval inside).bind fun _ _ hinside =>
        (NodeExpr.renamed_evalAll layered).bind fun _ _ hlayered =>
          .pure (Node.renamed_record.mpr { hr with
            fields := by rw [hr.fields], content := hinside, mixins := hlayered })
  | .clone x => by
    rw [NodeExpr.eval]
    exact (NodeExpr.renamed_eval x).bind fun _ _ ht => renamed_copy ht.same
  | .list items => by
    rw [NodeExpr.eval]
    exact (NodeExpr.renamed_evalAll items).bind fun _ _ hts => .pure (Node.renamed_list.mpr hts)
  | .flatten items => by
    rw [NodeExpr.eval]
    exact (NodeExpr.renamed_evalAll items).bind fun _ _ hts =>
      .pure (Node.renamed_list.mpr hts).flattenContent
  | .repeated n x => by
    rw [NodeExpr.eval]
    exact (renamed_times (NodeExpr.renamed_eval x) n).bind fun _ _ hts =>
      .pure (Node.renamed_list.mpr hts)
  | .nest n wrapper x => by
    rw [NodeExpr.eval]
    exact (NodeExpr.renamed_eval x).bind fun _ _ ht => wrapper.renamed_wrapTimes n ht
  | .saved name use => by
    rw [NodeExpr.eval]
    exact renamed_useSaved name use
  | .whole => by
    rw [NodeExpr.eval]
    exact RuleM.renamed_context.bind fun _ _ hc => .pure hc.tree
  | .content => by
    rw [NodeExpr.eval]
    exact RuleM.renamed_context.bind fun _ _ hc => renamed_copy hc.record.content.same
  | .contentSnapshot => by
    rw [NodeExpr.eval]
    refine RuleM.renamed_context.bind fun _ _ hc => ?_
    rw [Node.snapshot_eq, Node.snapshot_eq]
    exact .pure hc.record.content
  | .takeContent => by
    rw [NodeExpr.eval]
    exact RuleM.renamed_takeContent
  | .mixins => by
    rw [NodeExpr.eval]
    exact RuleM.renamed_context.bind fun _ _ hc =>
      renamed_copy (Node.renamed_list.mpr hc.record.mixins).same
  | .param name => by
    rw [NodeExpr.eval]
    refine RuleM.renamed_context.bind fun c c' hc => ?_
    unfold Context.paramTree Context.param?
    rw [hc.record.params_eq]
    exact renamed_copy rfl

theorem NodeExpr.renamed_evalAll : ∀ xs : List NodeExpr,
    (NodeExpr.evalAll xs).Renamed (sides keys) (List.Forall₂ (Node.Renamed keys))
      (NodeExpr.evalAll xs)
  | [] => by
    rw [NodeExpr.evalAll]
    exact .pure .nil
  | x :: xs => by
    rw [NodeExpr.evalAll]
    exact (NodeExpr.renamed_eval x).bind fun _ _ ht =>
      (NodeExpr.renamed_evalAll xs).bind fun _ _ hts => .pure (.cons ht hts)

end

/-! ### Actions -/

theorem renamed_probe {c c' : Context} (h : c.Renamed keys c') :
    (Probe.ofContext c).Renamed keys (.ofContext c') := by
  refine ⟨?_, h.record.content, h.tree⟩
  simp only [Probe.ofContext, Context.autoInit, h.position, h.record.component_eq,
    h.record.part_eq, h.record.variant_eq, h.record.rendering_eq, h.record.mixins.length_eq]

theorem renamed_appendLog {entry entry' : LogEntry} (h : entry.Renamed keys entry') :
    (appendLog entry).Renamed (sides keys) (fun _ _ => True) (appendLog entry') :=
  RuleM.renamed_modifyMemory fun _ _ hm =>
    { hm with log := List.rel_append hm.log (.cons h .nil) }

/-- What actions answer: nothing, to keep the record, or a tree. -/
abbrev RenamedResult (keys : Key → Key → Prop) :
    Option (Option Node) → Option (Option Node) → Prop :=
  Option.Rel (Option.Rel (Node.Renamed keys))

theorem renamed_andGoOn {x x' : Program Unit}
    (h : x.Renamed (sides keys) (fun _ _ => True) x') :
    (andGoOn x).Renamed (sides keys) (RenamedResult keys) (andGoOn x') :=
  h.bind fun _ _ _ => .pure .none

/-- An action that writes the value of an expression to the rendering. -/
theorem renamed_write {x : ValueExpr} {w : Literal → Write}
    (hw : ∀ v (r : Record), r.write (w v) = { r with rendering := r.rendering.write (w v) }) :
    (andGoOn (x.eval >>= fun v => RuleM.change (w v))).Renamed (sides keys) (RenamedResult keys)
      (andGoOn (x.eval >>= fun v => RuleM.change (w v))) :=
  renamed_andGoOn (bind_same x.renamed_eval fun v => RuleM.renamed_change (.rendering (hw v)))

mutual

/-- An action does the same on both sides. -/
theorem Action.renamed_run : ∀ a : Action, a.run.Renamed (sides keys) (RenamedResult keys) a.run
  | .setTag x | .setAttr name x | .setStateValue name x | .setInitOption name x => by
    rw [Action.run]
    exact renamed_write fun _ _ => rfl
  | .setAttrPosition name => by
    rw [Action.run]
    refine renamed_andGoOn (RuleM.renamed_context.bind fun c c' hc => ?_)
    rw [hc.position]
    exact RuleM.renamed_change (.rendering fun _ => rfl)
  | .setClasses on | .setData on | .setState name | .enableAutoInit | .stop => by
    rw [Action.run]
    exact renamed_andGoOn (RuleM.renamed_change (.rendering fun _ => rfl))
  | .setContent x => by
    rw [Action.run]
    exact renamed_andGoOn (x.renamed_eval.bind fun _ _ ht => RuleM.renamed_change (.content ht))
  | .addMixin x => by
    rw [Action.run]
    exact renamed_andGoOn (x.renamed_eval.bind fun _ _ ht => RuleM.renamed_change (.mixin ht))
  | .runAhead => by
    rw [Action.run]
    exact renamed_andGoOn RuleM.renamed_ahead
  | .save name x => by
    rw [Action.run]
    exact renamed_andGoOn (x.renamed_eval.bind fun _ _ ht =>
      RuleM.renamed_modifyMemory fun _ _ hm => { hm with saved := renamed_place name ht hm.saved })
  | .log x => by
    rw [Action.run]
    exact renamed_andGoOn (bind_same x.renamed_eval fun v => renamed_appendLog (.value v))
  | .probe => by
    rw [Action.run]
    exact renamed_andGoOn (RuleM.renamed_context.bind fun _ _ hc =>
      renamed_appendLog (.probe (renamed_probe hc)))
  | .branch condition yes no => by
    rw [Action.run]
    refine bind_same condition.renamed_eval fun v => ?_
    split
    · exact Action.renamed_runAll yes
    · exact Action.renamed_runAll no
  | .answer x => by
    rw [Action.run]
    exact x.renamed_eval.bind fun _ _ ht => .pure (.some (.some ht))
  | .keep => by
    rw [Action.run]
    exact .pure (.some .none)
  | .fail selector message => by
    rw [Action.run]
    exact bind_same message.renamed_eval fun v => .fail _

theorem Action.renamed_runAll : ∀ actions : List Action,
    (Action.runAll actions).Renamed (sides keys) (RenamedResult keys) (Action.runAll actions)
  | [] => by
    rw [Action.runAll]
    exact .pure .none
  | a :: rest => by
    rw [Action.runAll]
    refine (Action.renamed_run a).bind fun result result' hresult => ?_
    cases hresult with
    | none => exact Action.renamed_runAll rest
    | some hanswer => exact .pure (.some hanswer)

end

/-- The rule that a script makes up does the same on both sides. -/
theorem renamed_body (actions : List Action) :
    (body actions).Renamed (sides keys) (Option.Rel (Node.Renamed keys)) (body actions) := by
  refine (Action.renamed_runAll actions).bind fun result result' hresult => .pure ?_
  cases hresult with
  | none => exact .none
  | some hanswer => exact hanswer

end ComponentTree.Script
