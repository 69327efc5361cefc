import PairMarkup.Proofs.Choices.Nodes
import PairMarkup.Proofs.Resolution.Splitting

namespace PairMarkup

open List PairTree Config Progress

namespace ChoiceTree

mutual

/-- The choices without the diagnostics of their alternatives. -/
def undiagnosed : ChoiceTree → ChoiceTree
  | node choice children _ => node choice (undiagnosedAmong children) []

def undiagnosedAmong : List ChoiceTree → List ChoiceTree
  | [] => []
  | tree :: trees => undiagnosed tree :: undiagnosedAmong trees

end

theorem Replaces.undiagnosed_eq {id : PairId} {old new tree tree' : ChoiceTree} {path : List Nat}
    (h : Replaces id old new path tree tree') (hnew : new.undiagnosed = old.undiagnosed) :
    tree'.undiagnosed = tree.undiagnosed := by
  induction h with
  | root => exact hnew
  | @inside choice errors before after path tree tree' _ _ _ ih =>
    rw [undiagnosed, undiagnosed]
    congr 1
    clear * - ih
    induction before with
    | nil => simp only [nil_append, undiagnosedAmong, ih]
    | cons first before ihBefore => simp only [cons_append, undiagnosedAmong, ihBefore]

theorem undiagnosed_record? (tree : ChoiceTree) (id branch : PairId) (diagnostic : Diagnostic) :
    ((tree.record? id branch diagnostic).getD tree).undiagnosed = tree.undiagnosed := by
  cases hrecord : tree.record? id branch diagnostic with
  | none => rfl
  | some tree' =>
    obtain ⟨path, old, h⟩ := exists_replaces_of_update? hrecord
    exact h.undiagnosed_eq (by cases old; rfl)

end ChoiceTree

/-- The kind without what resolving owns in it: the tie of a usage, the binding of a parameter, the facts about a
    definition and the diagnostics of choices. -/
def Kind.written : Kind → Kind
  | .document choices implicit => .document choices.undiagnosed implicit
  | .aliasDefinition _ => .aliasDefinition {}
  | .aliasUsage _ => .aliasUsage none
  | .parameter _ place => .parameter none place
  | kind => kind

/-- The pair without what resolving owns in it. -/
def Pair.written (pair : Pair) : Pair :=
  { pair with kind := pair.kind.written, valueKind := .none, namespaceUri := none }

namespace Kind

theorem shape_written (kind : Kind) : kind.written.shape = kind.shape := by
  cases kind <;> rfl

end Kind

namespace Pair

variable {a b : Pair} (h : a.written = b.written)

include h

/-- Whatever tells kinds of pairs apart looks at what is written. -/
theorem flag_eq_of_written {α : Type} {f : Kind → α} (hshape : ∀ kind, f kind.shape = f kind) :
    f a.kind = f b.kind := by
  rw [← hshape, ← Kind.shape_written, show a.kind.written = b.kind.written from congrArg kind h, Kind.shape_written,
    hshape]

theorem name_eq_of_written : a.name = b.name := show a.written.name = b.written.name from congrArg name h

theorem children_eq_of_written : a.children = b.children :=
  show a.written.children = b.written.children from congrArg children h

omit h in
theorem written_mapChoices {f : ChoiceTree → ChoiceTree} (hf : ∀ choices, (f choices).undiagnosed = choices.undiagnosed)
    (pair : Pair) : (pair.mapChoices f).written = pair.written := by
  unfold mapChoices
  split
  · rename_i hkind
    simp only [written, hkind, Kind.written, hf]
  · rfl

omit h in
theorem Change.written_eq {handled : Prop} (h : a.Change handled b) : b.written = a.written := by
  cases h with
  | inform f =>
    unfold mapInfo
    split
    · rename_i hkind
      simp only [written, hkind, Kind.written]
    · rfl
  | tie definition husage =>
    cases hkind : a.kind <;> simp [hkind, Kind.isAliasUsage] at husage
    simp only [written, hkind, Kind.written]
  | liken | empty | locate => rfl
  | bind definition _ hkind => simp only [written, hkind, Kind.written]

end Pair

namespace PairTree

variable {t₀ t t' : PairTree} {scopes : List PairId} {x s : PairId}

/-- The number of the element that a scope is given: elements come behind all pairs of the tree, in the order in
    which the scopes are split. -/
def elementOf (t : PairTree) (scopes : List PairId) (s : PairId) : PairId := t.size + scopes.idxOf s

/-- The parent of a pair once scopes are split. What was in the block of such a scope is in that of its element. -/
def parentAfter? (t : PairTree) (scopes : List PairId) (x : PairId) : Option PairId :=
  (t.parent? x).map fun p => if p ∈ scopes ∧ x ∈ t.children p then t.elementOf scopes p else p

/-- A pair once scopes are split: those have no name and hold their elements. -/
def pairAfter (t : PairTree) (scopes : List PairId) (x : PairId) : Pair :=
  { t.get x with
    name := if x ∈ scopes then none else (t.get x).name
    children := if x ∈ scopes then [t.elementOf scopes x] else t.children x
    parent := t.parentAfter? scopes x }

/-- The tree `t` is written as `t₀` with the given scopes split one after the other. -/
structure SplitsInto (t₀ : PairTree) (scopes : List PairId) (t : PairTree) : Prop where
  nodup : scopes.Nodup
  named : ∀ s ∈ scopes, t₀.NamedScope s
  size_eq : t.size = t₀.size + scopes.length
  kept : ∀ x, x < t₀.size → (t.get x).written = (t₀.pairAfter scopes x).written
  element : ∀ s ∈ scopes, (t.get (t₀.elementOf scopes s)).written =
    { innerElement (t₀.get s) with children := t₀.children s, parent := some s }.written

theorem elementOf_append (hx : x ∈ scopes) : t₀.elementOf (scopes ++ [s]) x = t₀.elementOf scopes x := by
  rw [elementOf, idxOf_append_of_mem hx, elementOf]

theorem parentAfter?_append (hx : x ∉ t₀.children s) :
    t₀.parentAfter? (scopes ++ [s]) x = t₀.parentAfter? scopes x := by
  refine Option.map_congr fun p _ => ?_
  have hmem : p ∈ scopes ++ [s] ∧ x ∈ t₀.children p ↔ p ∈ scopes ∧ x ∈ t₀.children p := by
    refine and_congr_left fun hchild => ?_
    rw [mem_append, mem_singleton, or_iff_left]
    rintro rfl
    exact hx hchild
  simp only [hmem]
  split
  · rename_i h
    exact elementOf_append h.1
  · rfl

theorem WellFormed.parentAfter?_append_child (hwf : t₀.WellFormed) (hx : x ∈ t₀.children s) :
    t₀.parentAfter? (scopes ++ [s]) x = some (t₀.elementOf (scopes ++ [s]) s) := by
  have hmem : s ∈ scopes ++ [s] := mem_append_right _ (mem_singleton_self s)
  rw [parentAfter?, hwf.mem_held_iff.mp (mem_held_of_mem_children hx), Option.map_some, if_pos ⟨hmem, hx⟩]

theorem pairAfter_append (hx : x ≠ s) : t₀.pairAfter (scopes ++ [s]) x =
    { t₀.pairAfter scopes x with parent := t₀.parentAfter? (scopes ++ [s]) x } := by
  by_cases hmem : x ∈ scopes
  · simp only [pairAfter, mem_append, hmem, true_or, if_true, elementOf_append hmem]
  · simp only [pairAfter, mem_append, mem_singleton, hmem, hx, or_self, if_false]

/-- What hangs from the modules still does once scopes are split. -/
theorem Unfolds.rooted_iff (h : Unfolds t₀ t) {modules : List PairId} (howned₀ : t₀.Owned modules)
    (howned : t.Owned modules) (hx : x < t₀.size) : t.Rooted modules x ↔ t₀.Rooted modules x := by
  refine exists_congr fun m => and_congr_right fun hm => ?_
  rw [howned.wellFormed.hangsFrom_iff, howned₀.wellFormed.hangsFrom_iff, ← h.ancestors_eq x hx, mem_filter]
  simp [howned₀.module_lt_size hm]

namespace SplitsInto

theorem nil (t : PairTree) : t.SplitsInto [] t where
  nodup := .nil
  named _ hs := absurd hs not_mem_nil
  size_eq := rfl
  kept x _ := by
    have hparent : t.parentAfter? [] x = t.parent? x := by simp [parentAfter?]
    simp only [pairAfter, hparent, not_mem_nil, if_false]
    rfl
  element _ hs := absurd hs not_mem_nil

theorem of_written (h : t₀.SplitsInto scopes t) (hsize : t'.size = t.size)
    (hsame : ∀ x, (t'.get x).written = (t.get x).written) : t₀.SplitsInto scopes t' where
  nodup := h.nodup
  named := h.named
  size_eq := hsize.trans h.size_eq
  kept x hx := (hsame x).trans (h.kept x hx)
  element s hs := (hsame _).trans (h.element s hs)

variable (h : t₀.SplitsInto scopes t)

include h

theorem written_of_not_mem (hx : x < t₀.size) (hmem : x ∉ scopes) :
    (t.get x).written = { t₀.get x with parent := t₀.parentAfter? scopes x }.written := by
  rw [h.kept x hx, pairAfter, if_neg hmem, if_neg hmem]
  rfl

theorem children_scope (hs : s ∈ scopes) : t.children s = [t₀.elementOf scopes s] :=
  (Pair.children_eq_of_written (h.kept s (h.named s hs).lt_size)).trans (if_pos hs)

theorem children_element (hs : s ∈ scopes) : t.children (t₀.elementOf scopes s) = t₀.children s :=
  (Pair.children_eq_of_written (h.element s hs)).trans rfl

theorem flag_eq {α : Type} {f : Kind → α} (hshape : ∀ kind, f kind.shape = f kind) (hx : x < t₀.size) :
    f (t.kind x) = f (t₀.kind x) :=
  (Pair.flag_eq_of_written (h.kept x hx) hshape).trans rfl

/-- Those scopes still have their names that were not split. -/
theorem namedScope_iff (hx : x < t₀.size) : t.NamedScope x ↔ t₀.NamedScope x ∧ x ∉ scopes := by
  have hscope : (t.kind x).isScope = (t₀.kind x).isScope := h.flag_eq Kind.isScope_shape hx
  have hname : (t.get x).name = if x ∈ scopes then none else (t₀.get x).name :=
    (Pair.name_eq_of_written (h.kept x hx)).trans rfl
  rw [NamedScope, hscope, hname, NamedScope, and_assoc]
  refine and_congr_right fun _ => ?_
  split <;> simp [*]

theorem exists_elementOf (hx : t₀.size ≤ x) (hlt : x < t.size) : ∃ s ∈ scopes, t₀.elementOf scopes s = x := by
  obtain ⟨i, rfl⟩ := Nat.exists_eq_add_of_le hx
  have hi : i < scopes.length := Nat.lt_of_add_lt_add_left (h.size_eq ▸ hlt)
  exact ⟨scopes[i], getElem_mem hi, by rw [elementOf, h.nodup.idxOf_getElem i hi]⟩

theorem namedScope_lt (hx : t.NamedScope x) : x < t₀.size := by
  by_contra hnot
  obtain ⟨s, hs, rfl⟩ := h.exists_elementOf (Nat.le_of_not_lt hnot) hx.lt_size
  have hscope := Pair.flag_eq_of_written (h.element s hs) Kind.isScope_shape
  exact Bool.false_ne_true (hscope.symm.trans hx.1)

/-- To split one more scope is to put it behind the others. -/
theorem split (hwf₀ : t₀.WellFormed) (hnamed : t.NamedScope s) (hsplit : t.IsSplit t' s) :
    t₀.SplitsInto (scopes ++ [s]) t' := by
  have hs : s < t₀.size := h.namedScope_lt hnamed
  obtain ⟨hread, hnew⟩ := (h.namedScope_iff hs).mp hnamed
  have hlast : t₀.elementOf (scopes ++ [s]) s = t.size := by
    rw [elementOf, idxOf_append_of_notMem hnew, idxOf_cons_self, Nat.add_zero, h.size_eq]
  have hwritten := h.written_of_not_mem hs hnew
  have hchildren : t.children s = t₀.children s := (Pair.children_eq_of_written hwritten).trans rfl
  have hold : ∀ {c}, c ∈ t.children s → c < t₀.size := fun hc =>
    hwf₀.held_lt_size (mem_held_of_mem_children (hchildren ▸ hc))
  refine ⟨?_, fun a ha => ?_, ?_, fun x hx => ?_, fun a ha => ?_⟩
  · exact nodup_append.mpr ⟨h.nodup, nodup_singleton s, fun a ha b hb heq =>
      hnew (mem_singleton.mp hb ▸ heq ▸ ha)⟩
  · rcases mem_append.mp ha with ha | ha
    · exact h.named a ha
    · exact mem_singleton.mp ha ▸ hread
  · rw [hsplit.size_eq, h.size_eq, length_append, length_singleton, Nat.add_assoc]
  · by_cases hxs : x = s
    · subst hxs
      have hself : x ∉ t₀.children x := fun hmem => (hwf₀.child_lt_ne hmem).2 rfl
      have hmem : x ∈ scopes ++ [x] := mem_append_right _ (mem_singleton_self x)
      rw [hsplit.scope, pairAfter, if_pos hmem, if_pos hmem, hlast, parentAfter?_append hself]
      exact congrArg (fun pair : Pair => { pair with name := none, children := [t.size] }) hwritten
    · rw [pairAfter_append hxs]
      by_cases hmem : x ∈ t.children s
      · rw [hsplit.child x hmem, hwf₀.parentAfter?_append_child (hchildren ▸ hmem), hlast]
        exact congrArg (fun pair : Pair => { pair with parent := some t.size }) (h.kept x hx)
      · have hne : x ≠ t.size := (hx.trans_le (h.size_eq ▸ Nat.le_add_right _ _)).ne
        rw [hsplit.other x hne hxs hmem, parentAfter?_append (hchildren ▸ hmem)]
        exact h.kept x hx
  · rcases mem_append.mp ha with ha | ha
    · rw [elementOf_append ha]
      have hbefore : t₀.elementOf scopes a < t.size := by
        rw [h.size_eq]
        exact Nat.add_lt_add_left (idxOf_lt_length_of_mem ha) _
      have hbehind : t₀.size ≤ t₀.elementOf scopes a := Nat.le_add_right _ _
      rw [hsplit.other _ hbefore.ne (Nat.ne_of_gt (hs.trans_le hbehind)) fun hc => Nat.not_lt.mpr hbehind (hold hc)]
      exact h.element a ha
    · obtain rfl := mem_singleton.mp ha
      rw [hlast, hsplit.element, hchildren]
      exact congrArg (fun pair => { innerElement pair with
        children := t₀.children a, parent := some a, valueKind := .none }) hwritten

end SplitsInto

end PairTree

namespace Progress

variable {reports : Option Branch → Code → PairId → Prop} {handles : PairId → Prop} {p p' : Progress} {t₀ : PairTree}

theorem Edit.splitsInto (h : Edit reports handles p p') (hwf₀ : t₀.WellFormed) {scopes : List PairId}
    (hp : t₀.SplitsInto scopes p.tree) : ∃ scopes', t₀.SplitsInto scopes' p'.tree := by
  have hmodify : ∀ {id : PairId} {f : Pair → Pair}, (f (p.tree.get id)).written = (p.tree.get id).written →
      t₀.SplitsInto scopes (p.tree.modify id f) := by
    intro id f hf
    refine hp.of_written (size_modify ..) fun x => ?_
    rw [get_modify]
    split
    · rename_i hself
      rw [hself.1]
      exact hf
    · rfl
  cases h with
  | book hset _ =>
    rw [tree, hset]
    exact ⟨scopes, hp⟩
  | @report branch _ _ _ _ _ =>
    cases branch with
    | none => exact ⟨scopes, hp⟩
    | some branch =>
      exact ⟨scopes, hmodify (Pair.written_mapChoices (fun choices => choices.undiagnosed_record? _ _ _) _)⟩
  | change h => exact ⟨scopes, hmodify h.written_eq⟩
  | split id hwf =>
    by_cases hnamed : p.tree.NamedScope id
    · exact ⟨scopes ++ [id], hp.split hwf₀ hnamed (isSplit_splitScope hwf hnamed)⟩
    · refine ⟨scopes, ?_⟩
      change t₀.SplitsInto scopes (p.tree.splitScope id)
      rwa [splitScope_of_not hnamed]

theorem Edits.splitsInto (h : Edits reports handles p p') (hwf₀ : t₀.WellFormed)
    (hp : ∃ scopes, t₀.SplitsInto scopes p.tree) : ∃ scopes, t₀.SplitsInto scopes p'.tree := by
  induction h with
  | refl => exact hp
  | tail _ hedit ih =>
    obtain ⟨scopes, hscopes⟩ := ih
    exact hedit.splitsInto hwf₀ hscopes

end Progress

namespace Config

variable {set : ModuleSet} {m : Config}

theorem leads_splitsInto (hset : set.Parsed) (hm : Leads (start set) m) :
    ∃ scopes, set.tree.SplitsInto scopes m.progress.tree := by
  have hwf₀ := hset.tree_parsed.wellFormed
  refine induction_on (P := fun m => ∃ scopes, set.tree.SplitsInto scopes m.progress.tree) ?_
    (fun m m' hm hP hstep => ?_) hm
  · have hedits : Progress.Edits (fun _ _ _ => True) (fun _ => True) (initial set) (start set).progress :=
      start_edits fun _ _ _ _ => trivial
    exact hedits.splitsInto hwf₀ ⟨[], .nil set.tree⟩
  · have hwf := wellFormed_of_leads hset hm
    obtain ⟨action, rest, p⟩ := hstep
    exact (action.perform_edits hwf).splitsInto hwf₀ hP

theorem leads_met_of_split (hset : set.Parsed) (hm : Leads (start set) m) {s : PairId} (hread : set.tree.NamedScope s)
    (hsplit : ¬ m.progress.tree.NamedScope s) : m.progress.Met s := by
  refine induction_on (P := fun m => ¬ m.progress.tree.NamedScope s → m.progress.Met s) (fun hnot => ?_)
    (fun m m' hm hP hstep hnot => ?_) hm hsplit
  · rw [namedScope_iff_of_shape (start_noted set).shape_eq] at hnot
    exact absurd hread hnot
  · cases hstep.advances hset hm with
    | same hshape hmet =>
      rw [namedScope_iff_of_shape hshape] at hnot
      exact hmet s (hP hnot)
    | @split s' hnamed _ hnew hshape hmet =>
      by_cases heq : s = s'
      · exact heq ▸ hnew
      · rw [namedScope_iff_of_shape hshape,
          (isSplit_splitScope (wellFormed_of_leads hset hm) hnamed).namedScope_iff heq] at hnot
        exact hmet s (hP hnot)

end Config

namespace ModuleSet.Parsed

variable {set : ModuleSet} (hset : set.Parsed)

include hset

theorem mem_reachable_iff {x : PairId} : x ∈ set.reachable ↔ set.tree.Rooted set.modules x := by
  have howned := hset.tree_parsed.toOwned
  rw [reachable, mem_flatMap]
  refine exists_congr fun m => and_congr_right fun hm => ?_
  exact howned.wellFormed.mem_preorder_iff (howned.module_lt_size hm)

theorem reachable_nodup : set.reachable.Nodup := by
  have howned := hset.tree_parsed.toOwned
  have hwf := howned.wellFormed
  refine nodup_flatMap.mpr ⟨fun m hm => hwf.preorder_nodup (howned.module_lt_size hm), ?_⟩
  refine hset.modules_nodup.imp_of_mem fun {m m'} hm hm' hne x hx hx' => hne ?_
  rw [hwf.mem_preorder_iff (howned.module_lt_size hm)] at hx
  rw [hwf.mem_preorder_iff (howned.module_lt_size hm')] at hx'
  exact Option.some.inj ((hwf.getLast_ancestors (howned.module_root hm) hx).symm.trans
    (hwf.getLast_ancestors (howned.module_root hm') hx'))

/-- The scopes that are split are those with a name that hang from a module. -/
theorem mem_scopes_iff {scopes : List PairId} (h : set.tree.SplitsInto scopes (run set).tree) {s : PairId} :
    s ∈ scopes ↔ set.tree.Rooted set.modules s ∧ set.tree.NamedScope s := by
  have hleads := start_leads_run set
  have hrooted : s < set.tree.size → ((run set).tree.Rooted set.modules s ↔ set.tree.Rooted set.modules s) :=
    (leads_unfolds hset hleads).rooted_iff hset.tree_parsed.toOwned hset.run_tracked.covered.toOwned
  constructor
  · intro hs
    have hnamed := h.named s hs
    refine ⟨(hrooted hnamed.lt_size).mp ?_, hnamed⟩
    have hsplit : ¬ (run set).tree.NamedScope s := fun hagain =>
      ((h.namedScope_iff hnamed.lt_size).mp hagain).2 hs
    rcases leads_met_of_split hset hleads hnamed hsplit with hmet | hmet
    · exact (hset.mem_handled_run_iff.mp hmet).1
    · exact (hset.mem_entered_run_iff.mp hmet).1
  · rintro ⟨hs, hnamed⟩
    have hhandled : s ∈ (run set).handled := by
      refine hset.mem_handled_run_iff.mpr ⟨(hrooted hnamed.lt_size).mpr hs, ?_⟩
      rw [leads_flag hset Kind.isAliasDefinition_shape rfl hleads]
      exact Bool.eq_false_iff.mpr fun hdef =>
        Bool.false_ne_true ((Kind.not_scope_of_definition hdef).symm.trans hnamed.1)
    by_contra hmem
    exact leads_not_namedScope hset hleads s hhandled ((h.namedScope_iff hnamed.lt_size).mpr ⟨hnamed, hmem⟩)

theorem scopes_perm {scopes : List PairId} (h : set.tree.SplitsInto scopes (run set).tree) :
    scopes.Perm (set.reachable.filter (set.tree.NamedScope ·)) := by
  refine (perm_ext_iff_of_nodup h.nodup (hset.reachable_nodup.filter _)).mpr fun s => ?_
  rw [hset.mem_scopes_iff h, mem_filter, hset.mem_reachable_iff, decide_eq_true_eq]

end ModuleSet.Parsed

namespace Session

/-- Resolving a unit leaves every pair as it is written. Only the scopes with a local name that hang from a module
    are split, each once: what is new is one element for each of them, behind all other pairs. -/
theorem resolve_splits_scopes_only {limit : Option Nat} {sources : List Source} {parsed resolved : Session}
    (hparse : (start limit).parseAll sources = .ok parsed) (hresolve : parsed.resolve = .ok resolved) :
    resolved.set.modules = parsed.set.modules ∧
      ∃ scopes, scopes.Perm (parsed.set.reachable.filter (parsed.set.tree.NamedScope ·)) ∧
        parsed.set.tree.SplitsInto scopes resolved.set.tree := by
  have hset := parsed_of_start hparse
  obtain ⟨scopes, hscopes⟩ := Config.leads_splitsInto hset (Config.start_leads_run parsed.set)
  exact ⟨(modules_eq hparse hresolve).symm, scopes, hset.scopes_perm hscopes, run_tree_eq hresolve ▸ hscopes⟩

/-- A scope in the block of another one, and one below a value, where no module holds it. -/
def nestedScopesSource : Source where
  name := "a.pxml"
  format := .xml
  text := ("!#p = urn:p\n!d:\n    #p.x:\n        a = 1\n        #p.y:\n            $q\n!$q:\n    c = \"2\"\n" ++
    "        #p.z:\n            e = 4\n").toList

/-- The scopes 3 and 5 are given the elements 12 and 13. The scope 10 is not reached. -/
theorem nestedScopesSource_splits : ∃ parsed resolved,
    (start none).parseAll [nestedScopesSource] = .ok parsed ∧ parsed.resolve = .ok resolved ∧
      let t := resolved.set.tree
      (parsed.set.tree.NamedScope 10 ∧ t.NamedScope 10 ∧ parsed.set.tree.size = 12 ∧
        t.children 3 = [12] ∧ t.children 12 = [4, 5] ∧ t.children 5 = [13] ∧ t.children 13 = [6]) ∧
      ∃ scopes, scopes.Perm [3, 5] ∧ parsed.set.tree.SplitsInto scopes t := by
  obtain ⟨parsed, resolved, hparse, hresolve, hreached, hpairs⟩ := exists_confirmed
    (show confirms none [nestedScopesSource] (fun parsed resolved =>
      parsed.set.reachable.filter (parsed.set.tree.NamedScope ·) = [3, 5] ∧
        (parsed.set.tree.NamedScope 10 ∧ resolved.set.tree.NamedScope 10 ∧ parsed.set.tree.size = 12 ∧
          resolved.set.tree.children 3 = [12] ∧ resolved.set.tree.children 12 = [4, 5] ∧
          resolved.set.tree.children 5 = [13] ∧ resolved.set.tree.children 13 = [6])) = true by decide +kernel)
  obtain ⟨-, scopes, hscopes, hsplit⟩ := resolve_splits_scopes_only hparse hresolve
  exact ⟨parsed, resolved, hparse, hresolve, hpairs, scopes, hreached ▸ hscopes, hsplit⟩

end Session

end PairMarkup
