import PairMarkup.Proofs.Codes
import PairMarkup.Proofs.Construction.Modules
import PairMarkup.Proofs.Resolution.Completeness
import PairMarkup.Proofs.Resolution.Duplicates

namespace PairMarkup

open List Kind Pair Config PairTree

/-- What is reported of a prefix that stands for nothing. -/
def Pair.prefixNotice (pair : Pair) : Diagnostic :=
  .of .namespacePrefixNotDefined pair.nsPrefix.toList pair.file pair.fileIndex pair.nameSpan .resolve

namespace PairTree

/-- The pair has a prefix that stands for nothing at it. -/
def Unbound (t : PairTree) (modules : List PairId) (x : PairId) : Prop :=
  (t.kind x).hasNamespace = true ∧ ∃ before ∈ (t.get x).nsPrefix, t.namespaceAt? modules before x = none

/-- A scope with a local name has a prefix that stands for nothing around it. -/
def UnboundOutside (t : PairTree) (modules : List PairId) (s : PairId) : Prop :=
  t.NamedScope s ∧ ∃ before ∈ (t.get s).nsPrefix, t.namespaceAround? modules before s = none

instance (t : PairTree) (modules : List PairId) (x : PairId) : Decidable (t.Unbound modules x) :=
  inferInstanceAs (Decidable (_ ∧ _))

instance (t : PairTree) (modules : List PairId) (s : PairId) : Decidable (t.UnboundOutside modules s) :=
  inferInstanceAs (Decidable (_ ∧ _))

/-- What there is to find about the prefix of a pair. -/
def prefixFindings (t : PairTree) (modules : List PairId) (x : PairId) : List Finding :=
  if t.Unbound modules x then [⟨x, (t.get x).prefixNotice⟩] else []

variable {t t' : PairTree} {modules : List PairId} {x : PairId}

theorem prefixFindings_of_not (h : (t.kind x).hasNamespace = false) : t.prefixFindings modules x = [] :=
  if_neg fun hunbound => Bool.false_ne_true (h.symm.trans hunbound.1)

/-- What there is to find about a prefix depends on what the pair is like and on what the prefix stands for. -/
theorem prefixFindings_eq {pair : Pair} (hkind : (t.kind x).hasNamespace = pair.kind.hasNamespace)
    (hbefore : (t.get x).nsPrefix = pair.nsPrefix) (hnotice : (t.get x).prefixNotice = pair.prefixNotice) :
    t.prefixFindings modules x =
      if pair.kind.hasNamespace ∧ ∃ before ∈ pair.nsPrefix, t.namespaceAt? modules before x = none
      then [⟨x, pair.prefixNotice⟩] else [] := by
  simp only [prefixFindings, Unbound, hkind, hbefore, hnotice]

theorem prefixFindings_congr (hlasting : (t'.get x).lasting = (t.get x).lasting)
    (hat : ∀ before, t'.namespaceAt? modules before x = t.namespaceAt? modules before x) :
    t'.prefixFindings modules x = t.prefixFindings modules x := by
  rw [prefixFindings_eq (flag_eq_of_lasting hlasting hasNamespace_shape)
    (nsPrefix_eq_of_lasting hlasting) (congrArg prefixNotice hlasting :), prefixFindings]
  simp only [hat]
  rfl

end PairTree

namespace Progress

open PairTree

variable {reports : Option Branch → Code → PairId → Prop} {handles : PairId → Prop} {p p' : Progress} {code : Code}
  {branch : Option Branch}

def findingsWith (p : Progress) (code : Code) : List Finding := p.findings.filter (·.diagnostic.code = code)

theorem findingsWith_report_of_ne {code' : Code} (h : code' ≠ code) (arguments : List String)
    (subject : PairId) (span : Span) :
    (p.report branch code' arguments subject span).findingsWith code = p.findingsWith code := by
  rw [findingsWith, (report_spec ..).2, filter_append, findingsWith, append_right_eq_self, filter_eq_nil_iff]
  intro f hf
  rw [mem_singleton.mp hf]
  exact fun hcode => h (of_decide_eq_true hcode)

/-- There are no more findings with a code than before if none with that code may be reported. -/
theorem Edits.findingsWith_eq (h : Edits reports handles p p')
    (hnot : ∀ branch subject, ¬ reports branch code subject) : p'.findingsWith code = p.findingsWith code := by
  induction h with
  | refl => rfl
  | tail _ hedit ih =>
    refine Eq.trans ?_ ih
    cases hedit with
    | book _ hfindings => rw [findingsWith, hfindings, findingsWith]
    | report arguments span hreport =>
      refine findingsWith_report_of_ne ?_ arguments _ span
      rintro rfl
      exact hnot _ _ hreport
    | change | split => rfl

theorem lenient_findingsWith (code : Code) :
    Lenient (· ≠ code) (fun _ => True) fun p p' => p'.findingsWith code = p.findingsWith code where
  refl _ := rfl
  trans h h' := h'.trans h
  report _ _ _ _ _ _ h := findingsWith_report_of_ne h ..
  modify _ _ _ _ := rfl

section

variable (p branch)

theorem findingsWith_bindNamespace (inner : Scope) (x : PairId) :
    (p.bindNamespace branch inner x).findingsWith .namespacePrefixNotDefined =
      p.findingsWith .namespacePrefixNotDefined ++
        if ∃ before ∈ (p.tree.get x).nsPrefix, inner.namespaceFor? before = none
        then [⟨x, (p.tree.get x).prefixNotice⟩] else [] := by
  cases hbefore : (p.tree.get x).nsPrefix with
  | none =>
    have hquiet : (p.bindNamespace branch inner x).findings = p.findings := by
      simp only [bindNamespace, hbefore]
      rfl
    simp [findingsWith, hquiet]
  | some before =>
    cases huri : inner.namespaceFor? before with
    | some uri =>
      have hquiet : (p.bindNamespace branch inner x).findings = p.findings := by
        simp only [bindNamespace, hbefore, huri]
        rfl
      simp [findingsWith, hquiet, huri]
    | none =>
      have hreport : (p.bindNamespace branch inner x).findings = p.findings ++ [⟨x, (p.tree.get x).prefixNotice⟩] := by
        simp only [bindNamespace, hbefore, huri, prefixNotice]
        exact (report_spec ..).2
      simp [findingsWith, hreport, huri, prefixNotice, Diagnostic.of]

/-- To look at the kind of a pair is to ask for what its prefix stands for. -/
theorem findingsWith_noteKind (inner : Scope) (x : PairId) :
    (p.noteKind branch inner x).findingsWith .namespacePrefixNotDefined = p.findingsWith .namespacePrefixNotDefined ++
        if (p.tree.kind x).hasNamespace ∧ ∃ before ∈ (p.tree.get x).nsPrefix, inner.namespaceFor? before = none
        then [⟨x, (p.tree.get x).prefixNotice⟩] else [] := by
  by_cases hkind : (p.tree.kind x).hasNamespace = true
  · simp only [noteKind_of_hasNamespace hkind, findingsWith_bindNamespace, hkind, true_and]
  · rw [if_neg fun h => hkind h.1, append_nil]
    have hlenient := lenient_findingsWith .namespacePrefixNotDefined
    exact hlenient.noteKind p branch x (by decide) (fun _ => findingsWith_report_of_ne (by decide) ..)
      (absurd · hkind) fun _ => hlenient.bindParameter p branch x (fun _ _ => trivial) (by decide)

end

/-- A scope that knows the namespaces at a pair finds what there is to find about the prefix. -/
theorem noteKind_prefixFindings {inner : Scope} {x : PairId} {modules : List PairId}
    (hnames : ∀ before, inner.namespaceFor? before = (p.noteKind branch inner x).tree.namespaceAt? modules before x) :
    (p.noteKind branch inner x).findingsWith .namespacePrefixNotDefined =
      p.findingsWith .namespacePrefixNotDefined ++ (p.noteKind branch inner x).tree.prefixFindings modules x := by
  rw [findingsWith_noteKind]
  simp only [hnames]
  have hshape := (noteKind_noted p branch inner x).shape_eq
  generalize p.noteKind branch inner x = p' at hshape ⊢
  have hpair : (p'.tree.get x).shape = (p.tree.get x).shape := by
    rw [← get_shape, hshape, get_shape]
  have hkind : (p'.tree.kind x).hasNamespace = (p.tree.get x).kind.hasNamespace :=
    flag_eq_of_shape hshape hasNamespace_shape x
  rw [prefixFindings_eq hkind (congrArg nsPrefix hpair :) (congrArg prefixNotice hpair :)]
  rfl

end Progress

namespace WalkAction

open Progress

variable {p : Progress}

/-- Whatever is done besides looking at a pair with a namespace, no prefix is asked for. -/
theorem perform_findingsWith_eq (hwf : p.tree.WellFormed) (action : WalkAction)
    (hother : ∀ n context x, action = .visit (n + 1) context x → (p.tree.kind x).hasNamespace = false) :
    (action.perform p).2.findingsWith .namespacePrefixNotDefined = p.findingsWith .namespacePrefixNotDefined := by
  refine (action.perform_edits hwf).findingsWith_eq fun branch subject hreport => ?_
  obtain ⟨n, context, haction, -, -, hnamespace⟩ := hreport (by decide)
  exact Bool.false_ne_true ((hother n context subject haction).symm.trans (hnamespace rfl))

end WalkAction

namespace Config

open Progress WalkAction

variable {set : ModuleSet} {m m' : Config}

/-- To look at a pair with a namespace is to find what there is to find about its prefix. -/
theorem visit_findingsWith (hset : set.Parsed) {n : Nat} {context : Context} {x : PairId} {rest : List WalkAction}
    {p : Progress} (hm : Leads (start set) ⟨.visit (n + 1) context x :: rest, p⟩)
    (hkind : (p.tree.kind x).hasNamespace) :
    (ofVisit n context x p).2.findingsWith .namespacePrefixNotDefined =
      p.findingsWith .namespacePrefixNotDefined ++ (ofVisit n context x p).2.tree.prefixFindings set.modules x := by
  have hwf := wellFormed_of_leads hset hm
  have hkeeps : KeepsNamespaces set p (ofVisit n context x p).2 :=
    (Step.perform (.visit (n + 1) context x) rest p).keepsNamespaces hset hm
  have hknows : KnowsAround set p context.scope x := (leads_places hset hm).1.actions _ mem_cons_self
  have hdef := not_definition_of_hasNamespace hkind
  have hmet : (ofVisit n context x p).2.Met x := .inl (ofVisit_handled n context hdef ▸ mem_cons_self)
  have hbegin : Edits (fun _ code _ => ¬ code.IsAboutNeed) (fun _ => True) p (p.beginPair context.branch x) :=
    beginPair_edits (fun _ _ _ => id) hwf context.branch x
  rw [ofVisit_plain n context hwf hdef (not_usage_of_hasNamespace hkind)] at hkeeps hmet ⊢
  have hinside := (hknows.of_keeps hkeeps).enter hmet (noteKind_noted ..).shape_eq
  refine (noteKind_prefixFindings hinside.names).trans ?_
  rw [hbegin.findingsWith_eq fun _ _ h => h (by decide)]

theorem Step.findingsWith_eq (hset : set.Parsed) (hstep : Step m m') (hm : Leads (start set) m)
    (h : m.progress.findingsWith .namespacePrefixNotDefined =
      m.progress.handled.reverse.flatMap (m.progress.tree.prefixFindings set.modules)) :
    m'.progress.findingsWith .namespacePrefixNotDefined =
      m'.progress.handled.reverse.flatMap (m'.progress.tree.prefixFindings set.modules) := by
  have hwf := wellFormed_of_leads hset hm
  have hkeeps := hstep.keepsNamespaces hset hm
  have hways := (leads_places hset hm).1.ways
  have hcovered := (leads_tracked hset hm).2.covered
  obtain ⟨action, rest, p⟩ := hstep
  have hlasting := action.perform_keeps lasting_stays hwf
  -- what was found about the pairs handled before is still what there is to find
  have hbefore : p.handled.reverse.flatMap ((action.perform p).2.tree.prefixFindings set.modules) =
      p.handled.reverse.flatMap (p.tree.prefixFindings set.modules) := by
    refine flatMap_congr fun x hx => ?_
    have hhandled := mem_reverse.mp hx
    refine prefixFindings_congr (hlasting.same x (hcovered.handled_lt x hhandled)) ?_
    exact hkeeps.inside x (hways x (.inl hhandled)) (.inl hhandled)
  by_cases hvisit : ∃ n context x, action = .visit (n + 1) context x ∧ (p.tree.kind x).hasNamespace = true
  · obtain ⟨n, context, x, rfl, hkind⟩ := hvisit
    have hhandled := ofVisit_handled n context (not_definition_of_hasNamespace hkind)
    change (ofVisit n context x p).2.findingsWith _ = (ofVisit n context x p).2.handled.reverse.flatMap _
    rw [visit_findingsWith hset hm hkind, hhandled, reverse_cons, flatMap_append, flatMap_singleton, h]
    exact congrArg (· ++ _) hbefore.symm
  · have hother : ∀ n context x, action = .visit (n + 1) context x → (p.tree.kind x).hasNamespace = false := by
      intro n context x haction
      exact Bool.eq_false_iff.mpr fun hkind => hvisit ⟨n, context, x, haction, hkind⟩
    refine (action.perform_findingsWith_eq hwf hother).trans (h.trans ?_)
    rcases action.perform_handled p with heq | ⟨n, context, x, rfl, hdef, heq⟩
    · change _ = (action.perform p).2.handled.reverse.flatMap _
      rw [heq, hbefore]
    · have hx : x < p.tree.size := hcovered.ids_lt x mem_cons_self
      have hnone : (ofVisit n context x p).2.tree.prefixFindings set.modules x = [] := by
        refine prefixFindings_of_not ?_
        exact (flag_eq_of_lasting (hlasting.same x hx) hasNamespace_shape).trans (hother n context x rfl)
      change _ = (WalkAction.perform (.visit (n + 1) context x) p).2.handled.reverse.flatMap _
      rw [heq, reverse_cons, flatMap_append, flatMap_singleton, hbefore]
      exact (append_nil _).symm.trans (congrArg _ hnone.symm)

/-- The findings about prefixes are those about the pairs that were handled, in order. -/
theorem leads_findingsWith (hset : set.Parsed) (hm : Leads (start set) m) :
    m.progress.findingsWith .namespacePrefixNotDefined =
      m.progress.handled.reverse.flatMap (m.progress.tree.prefixFindings set.modules) := by
  refine induction_on (P := fun m => m.progress.findingsWith .namespacePrefixNotDefined =
    m.progress.handled.reverse.flatMap (m.progress.tree.prefixFindings set.modules)) ?_
    (fun m m' hm h hstep => hstep.findingsWith_eq hset hm h) hm
  have hedits : Edits (fun _ code _ => ¬ code.IsAboutNeed) (fun _ => True) (initial set) (start set).progress :=
    start_edits fun _ _ _ => id
  rw [hedits.findingsWith_eq fun _ _ h => h (by decide), (start_noted set).handled_eq]
  rfl

end Config

namespace PairTree

variable {t t₀ : PairTree} {modules scopes : List PairId} {x s : PairId}

namespace SplitsInto

variable (h : t₀.SplitsInto scopes t) (hwf₀ : t₀.WellFormed)

include h hwf₀

theorem declared_eq {a : PairId} : ∀ d ∈ t₀.namespaceDefinitions a,
    (t.get d).nameText = (t₀.get d).nameText ∧ (t.get d).value = (t₀.get d).value := by
  intro d hd
  obtain ⟨hchild, hkind⟩ := mem_filter.mp hd
  have hlt := (hwf₀.child_lt_ne hchild).1
  have hmem : d ∉ scopes := h.not_mem_of_plain (by
    cases hk : t₀.kind d <;> simp [hk, isNamespaceDefinition, isScope] at hkind ⊢)
  exact ⟨h.get_eq_of_not_mem nameText (fun _ => rfl) hlt hmem, h.get_eq_of_not_mem value (fun _ => rfl) hlt hmem⟩

theorem declaredAs?_eq (hx : x < t₀.size) (hmem : x ∉ scopes) (before : String) :
    t.declaredAs? before x = t₀.declaredAs? before x :=
  declaredAs?_congr (h.namespaceDefinitions_eq hwf₀ hx hmem) (h.declared_eq hwf₀) before

theorem declaredAs?_element (hs : s ∈ scopes) (before : String) :
    t.declaredAs? before (t₀.elementOf scopes s) = t₀.declaredAs? before s :=
  declaredAs?_congr (h.namespaceDefinitions_element hwf₀ hs) (h.declared_eq hwf₀) before

theorem namespaceOutside?_eq (hmodules : ∀ m ∈ modules, m < t₀.size ∧ m ∉ scopes) (before : String) :
    t.namespaceOutside? modules before = t₀.namespaceOutside? modules before :=
  namespaceOutside?_congr fun m hm => h.declaredAs?_eq hwf₀ (hmodules m hm).1 (hmodules m hm).2 before

variable (hwf : t.WellFormed)

include hwf

/-- At the element of a scope, a prefix stands for what it stood for at the scope if it stands around the scope
    for what it did. -/
theorem namespaceAt?_element (hs : s ∈ scopes) {before : String}
    (haround : t.namespaceAround? modules before s = t₀.namespaceAround? modules before s) :
    t.namespaceAt? modules before (t₀.elementOf scopes s) = t₀.namespaceAt? modules before s := by
  have hparent : t.parent? (t₀.elementOf scopes s) = some s := (congrArg parent (h.element s hs) :)
  rw [namespaceAt?_eq, h.declaredAs?_element hwf₀ hs, hwf.namespaceAround?_of_parent hparent, namespaceAt?_eq,
    declaredAs?_eq_none_of_empty (h.namespaceDefinitions_scope hs), Option.none_or, haround, ← namespaceAt?_eq]

variable (hmodules : ∀ m ∈ modules, m < t₀.size ∧ m ∉ scopes)
  (hitems : ∀ s ∈ scopes, (t₀.get s).items = none ∨ t₀.namespaceDefinitions s = [])

include hmodules hitems

/-- What prefixes stand for around a pair is as it was read, if no scope that is split has both parts of a value and
    definitions of namespaces. -/
theorem namespaceAround?_eq (hx : x < t₀.size) (before : String) :
    t.namespaceAround? modules before x = t₀.namespaceAround? modules before x := by
  have hparent : ∀ {x}, x < t₀.size → t.parent? x = t₀.parentAfter? scopes x := fun hx =>
    (congrArg parent (h.kept _ hx) :)
  induction x using hwf₀.induction_up with
  | root x hroot =>
    have hroot' : t.parent? x = none := by rw [hparent hx, parentAfter?, hroot, Option.map_none]
    rw [namespaceAround?_of_root hroot, namespaceAround?_of_root hroot', h.namespaceOutside?_eq hwf₀ hmodules]
  | child x p hp ih =>
    have hpx := hwf₀.parent_lt_size hp
    have hp' : t.parent? x = some (if p ∈ scopes ∧ x ∈ t₀.children p then t₀.elementOf scopes p else p) := by
      rw [hparent hx, parentAfter?, hp, Option.map_some]
    rw [hwf₀.namespaceAround?_of_parent hp, hwf.namespaceAround?_of_parent hp']
    split
    · rename_i hmem
      exact h.namespaceAt?_element hwf₀ hwf hmem.1 (ih hpx)
    · rename_i hmem
      rw [namespaceAt?_eq, namespaceAt?_eq, ih hpx]
      refine congrArg (Option.or · _) ?_
      by_cases hscope : p ∈ scopes
      · have hitem : x ∈ (t₀.get p).items.getD [] :=
          (mem_append.mp (hwf₀.mem_held_iff.mpr hp)).resolve_left fun hchild => hmem ⟨hscope, hchild⟩
        have hnone : t₀.namespaceDefinitions p = [] := by
          refine (hitems p hscope).resolve_left fun hnone => ?_
          rw [hnone] at hitem
          cases hitem
        rw [declaredAs?_eq_none_of_empty hnone, declaredAs?_eq_none_of_empty (h.namespaceDefinitions_scope hscope)]
      · exact h.declaredAs?_eq hwf₀ hpx hscope before

theorem unbound_iff (hx : x < t₀.size) (hmem : x ∉ scopes) : t.Unbound modules x ↔ t₀.Unbound modules x := by
  have haround := h.namespaceAround?_eq hwf₀ hwf hmodules hitems hx
  simp only [Unbound, h.flag_eq hasNamespace_shape hx, h.get_eq_of_not_mem nsPrefix (fun _ => rfl) hx hmem,
    namespaceAt?_eq, h.declaredAs?_eq hwf₀ hx hmem, haround]

theorem unbound_scope_iff (hs : s ∈ scopes) : t.Unbound modules s ↔ t₀.UnboundOutside modules s := by
  have hnamed := h.named s hs
  have hkind : (t.kind s).hasNamespace :=
    (h.flag_eq hasNamespace_shape hnamed.lt_size).trans (hasNamespace_of_scope hnamed.1)
  have hbefore : (t.get s).nsPrefix = (t₀.get s).nsPrefix := (congrArg nsPrefix (h.kept s hnamed.lt_size) :)
  have haround := h.namespaceAround?_eq hwf₀ hwf hmodules hitems hnamed.lt_size
  simp only [Unbound, UnboundOutside, hkind, hnamed, hbefore, namespaceAt?_eq,
    declaredAs?_eq_none_of_empty (h.namespaceDefinitions_scope hs), Option.none_or, haround]

theorem unbound_element_iff (hs : s ∈ scopes) : t.Unbound modules (t₀.elementOf scopes s) ↔ t₀.Unbound modules s := by
  have hnamed := h.named s hs
  have hbefore : (t.get (t₀.elementOf scopes s)).nsPrefix = (t₀.get s).nsPrefix :=
    (congrArg nsPrefix (h.element s hs) :)
  have hkind : (t.kind (t₀.elementOf scopes s)).hasNamespace := by
    rw [h.kind_element hs]
    rfl
  have hat := fun before => h.namespaceAt?_element hwf₀ hwf hs
    (h.namespaceAround?_eq hwf₀ hwf hmodules hitems hnamed.lt_size before)
  simp only [Unbound, hkind, hasNamespace_of_scope hnamed.1, hbefore, hat]

end SplitsInto

end PairTree

theorem flatMap_ite_singleton {α β : Type} (p : α → Prop) [DecidablePred p] (f : α → β) (l : List α) :
    (l.flatMap fun a => if p a then [f a] else []) = (l.filter (p ·)).map f := by
  induction l with
  | nil => rfl
  | cons a l ih =>
    rw [flatMap_cons, ih]
    by_cases ha : p a
    · simp [ha]
    · simp [ha]

namespace ModuleSet.Parsed

open Progress

variable {set : ModuleSet} {scopes : List PairId} {x : PairId} (hset : set.Parsed)

include hset

theorem met_run_iff : (run set).Met x ↔ (run set).tree.Rooted set.modules x :=
  ⟨fun h => h.elim (hset.run_rooted.handled x) (hset.run_rooted.entered x), hset.met_run⟩

section

variable (h : set.tree.SplitsInto scopes (run set).tree)

include h

/-- What is met in the end is what hangs from the modules and the elements of the scopes that are split. -/
theorem met_run_perm :
    ((run set).handled ++ (run set).entered).Perm (set.reachable ++ scopes.map (set.tree.elementOf scopes)) := by
  have hcovered := hset.run_tracked.covered
  have hrooted : ∀ {x}, x < set.tree.size → ((run set).tree.Rooted set.modules x ↔ set.tree.Rooted set.modules x) :=
    (leads_unfolds hset (start_leads_run set)).rooted_iff hset.tree_parsed.toOwned hcovered.toOwned
  have hnew : ∀ s, ¬ set.tree.elementOf scopes s < set.tree.size := fun s => Nat.not_lt.mpr (Nat.le_add_right _ _)
  have hold : ∀ {x}, x ∈ set.reachable → x < set.tree.size := fun hx =>
    hset.tree_parsed.toOwned.rooted_lt_size (hset.mem_reachable_iff.mp hx)
  refine (perm_ext_iff_of_nodup ?_ ?_).mpr fun x => ?_
  · refine nodup_append.mpr ⟨(nodup_append.mp hcovered.fresh).2.1, hcovered.entered_nodup, ?_⟩
    rintro x hx _ hx' rfl
    exact Bool.false_ne_true ((hcovered.handled_plain x hx).symm.trans (hcovered.entered_definition x hx'))
  · refine nodup_append.mpr ⟨hset.reachable_nodup, h.nodup.map_on fun s hs s' _ => elementOf_inj hs, ?_⟩
    rintro x hx _ hx' rfl
    obtain ⟨s, -, rfl⟩ := mem_map.mp hx'
    exact hnew s (hold hx)
  · rw [mem_append, mem_append]
    refine hset.met_run_iff.trans ⟨fun hx => ?_, ?_⟩
    · rcases lt_or_ge x set.tree.size with hlt | hge
      · exact .inl (hset.mem_reachable_iff.mpr ((hrooted hlt).mp hx))
      · obtain ⟨s, hs, rfl⟩ := h.exists_elementOf hge (hcovered.toOwned.rooted_lt_size hx)
        exact .inr (mem_map_of_mem hs)
    · rintro (hx | hx)
      · exact (hrooted (hold hx)).mpr (hset.mem_reachable_iff.mp hx)
      · obtain ⟨s, hs, rfl⟩ := mem_map.mp hx
        have hroot := (hset.mem_scopes_iff h).mp hs
        refine ((hrooted hroot.2.lt_size).mpr hroot.1).held ?_
        rw [h.held_scope hs]
        exact mem_cons_self

theorem modules_apart : ∀ m ∈ set.modules, m < set.tree.size ∧ m ∉ scopes := fun m hm =>
  ⟨hset.tree_parsed.module_lt_size hm, fun hmem =>
    (hset.tree_parsed.toOwned.module_ne_of_named (h.named m hmem) m hm).2 rfl⟩

end

variable (h : set.tree.SplitsInto scopes (run set).tree)
  (hitems : ∀ s ∈ scopes, (set.tree.get s).items = none ∨ set.tree.namespaceDefinitions s = [])

include h hitems

/-- Among what is met in the end, a prefix is unbound once for each pair that was read with an unbound prefix, and once
    more for each scope with a local name whose prefix is unbound around it. -/
theorem filter_unbound_perm :
    (set.reachable.filter ((run set).tree.Unbound set.modules ·) ++ scopes.filter (set.tree.Unbound set.modules ·)).Perm
      (set.reachable.filter (set.tree.Unbound set.modules ·) ++
        set.reachable.filter (set.tree.UnboundOutside set.modules ·)) := by
  have hwf₀ := hset.tree_parsed.wellFormed
  have hwf := hset.run_tracked.covered.wellFormed
  have hmodules := hset.modules_apart h
  let named := set.reachable.filter (set.tree.NamedScope ·)
  let others := set.reachable.filter fun x => !decide (set.tree.NamedScope x)
  have hsplit : ∀ p : PairId → Bool, (set.reachable.filter p).Perm (named.filter p ++ others.filter p) := by
    intro p
    rw [← filter_append]
    exact (filter_append_perm _ set.reachable).symm.filter p
  have hscope : ∀ {s}, s ∈ named → s ∈ scopes := fun hs => (hset.scopes_perm h).mem_iff.mpr hs
  have hnamed : named.filter ((run set).tree.Unbound set.modules ·) =
      set.reachable.filter (set.tree.UnboundOutside set.modules ·) := by
    rw [filter_filter]
    refine filter_congr fun s hs => ?_
    by_cases hname : set.tree.NamedScope s
    · have hmem := hscope (mem_filter.mpr ⟨hs, decide_eq_true hname⟩)
      simp only [hname, h.unbound_scope_iff hwf₀ hwf hmodules hitems hmem, decide_true, Bool.and_true]
    · have hnot : ¬ set.tree.UnboundOutside set.modules s := fun hunbound => hname hunbound.1
      simp only [hname, hnot, decide_false, Bool.and_false]
  have hothers : others.filter ((run set).tree.Unbound set.modules ·) =
      others.filter (set.tree.Unbound set.modules ·) := by
    refine filter_congr fun x hx => ?_
    obtain ⟨hreached, hname⟩ := mem_filter.mp hx
    have hmem : x ∉ scopes := fun hmem => by simp [h.named x hmem] at hname
    have hlt := hset.tree_parsed.toOwned.rooted_lt_size (hset.mem_reachable_iff.mp hreached)
    simp only [h.unbound_iff hwf₀ hwf hmodules hitems hlt hmem]
  refine ((hsplit _).append ((hset.scopes_perm h).filter _)).trans ?_
  rw [hnamed, hothers]
  have hjoin : (others.filter (set.tree.Unbound set.modules ·) ++ named.filter (set.tree.Unbound set.modules ·)).Perm
      (set.reachable.filter (set.tree.Unbound set.modules ·)) := perm_append_comm.trans (hsplit _).symm
  rw [append_assoc]
  exact (hjoin.append_left _).trans perm_append_comm

/-- The findings about prefixes, with the pairs that they stem from. -/
theorem prefixes_run : (((run set).findingsWith .namespacePrefixNotDefined).map fun f =>
        ((run set).tree.origin? set.tree.size f.subject, f.diagnostic)).Perm
      ((set.reachable.filter (set.tree.Unbound set.modules ·) ++
        set.reachable.filter (set.tree.UnboundOutside set.modules ·)).map fun x =>
          (some x, (set.tree.get x).prefixNotice)) := by
  have hrun := start_leads_run set
  have hwf₀ := hset.tree_parsed.wellFormed
  have hcovered := hset.run_tracked.covered
  have hmodules := hset.modules_apart h
  -- definitions have no prefix, so that the findings are those about all that is met
  have hentered : (run set).entered.flatMap ((run set).tree.prefixFindings set.modules) = [] := by
    refine flatMap_eq_nil_iff.mpr fun d hd => prefixFindings_of_not ?_
    have hdef := hcovered.entered_definition d hd
    exact Bool.eq_false_iff.mpr fun hkind => Bool.false_ne_true
      ((not_definition_of_hasNamespace hkind).symm.trans hdef)
  have hfindings : ((run set).findingsWith .namespacePrefixNotDefined).Perm
      (((set.reachable ++ scopes.map (set.tree.elementOf scopes)).filter ((run set).tree.Unbound set.modules ·)).map
        fun x => ⟨x, ((run set).tree.get x).prefixNotice⟩) := by
    have hall := (hset.met_run_perm h).flatMap_right ((run set).tree.prefixFindings set.modules)
    rw [flatMap_append, hentered, append_nil] at hall
    rw [← flatMap_ite_singleton, leads_findingsWith hset hrun]
    exact ((reverse_perm _).flatMap_right _).trans hall
  have hold : ∀ x ∈ set.reachable, ((run set).tree.origin? set.tree.size x, ((run set).tree.get x).prefixNotice) =
      (some x, (set.tree.get x).prefixNotice) := by
    intro x hx
    have hlt := hset.tree_parsed.toOwned.rooted_lt_size (hset.mem_reachable_iff.mp hx)
    rw [origin?_of_lt _ hlt]
    exact congrArg _ (congrArg prefixNotice (h.kept x hlt) :)
  have hnew : ∀ s ∈ scopes, ((run set).tree.origin? set.tree.size (set.tree.elementOf scopes s),
      ((run set).tree.get (set.tree.elementOf scopes s)).prefixNotice) = (some s, (set.tree.get s).prefixNotice) := by
    intro s hs
    have hlt := (h.named s hs).lt_size
    rw [(h.origin?_eq_some_iff hcovered.wellFormed hlt (h.elementOf_lt hs)).mpr (.inr ⟨hs, rfl⟩)]
    exact congrArg _ (congrArg prefixNotice (h.element s hs) :)
  refine (hfindings.map _).trans (.trans (.of_eq ?_) ((hset.filter_unbound_perm h hitems).map _))
  rw [map_map, filter_append, map_append, filter_map, map_map, map_append]
  refine congrArg₂ (· ++ ·) (map_congr_left fun x hx => hold x (mem_of_mem_filter hx)) ?_
  have helements :
      scopes.filter ((fun x => decide ((run set).tree.Unbound set.modules x)) ∘ set.tree.elementOf scopes) =
      scopes.filter (set.tree.Unbound set.modules ·) := filter_congr fun s hs => by
    simp only [Function.comp, h.unbound_element_iff hwf₀ hcovered.wellFormed hmodules hitems hs]
  rw [helements]
  exact map_congr_left fun s hs => hnew s (mem_of_mem_filter hs)

end ModuleSet.Parsed

namespace Session

variable {limit : Option Nat} {sources : List Source} {parsed resolved : Session}

/-- As it is read, a scope has no parts of a value or no definitions of namespaces. -/
theorem scope_items_or_definitions (hok : (start limit).parseAll sources = .ok parsed) {s : PairId}
    (hs : parsed.set.tree.Rooted parsed.set.modules s) (hscope : (parsed.set.tree.kind s).isScope) :
    (parsed.set.tree.get s).items = none ∨ parsed.set.tree.namespaceDefinitions s = [] := by
  have hbare : parsed.set.tree.contentChildren s = [] → parsed.set.tree.namespaceDefinitions s = [] := by
    intro hnil
    refine filter_eq_nil_iff.mpr fun c hc hdefinition => ?_
    have hcomment := filter_eq_nil_iff.mp hnil c hc
    cases hkind : parsed.set.tree.kind c <;> simp [hkind, isNamespaceDefinition, isComment] at hdefinition hcomment
  obtain ⟨m, hm, hangs⟩ := hs
  obtain ⟨source, -, hlaid⟩ := (laid_of_start hok).exists_source hm
  rcases (hlaid s hangs).shaped with hcomment | ⟨helement, -⟩ | ⟨shape, hshape⟩
  · cases hkind : parsed.set.tree.kind s <;> simp [hkind, isScope, isComment] at hscope hcomment
  · exact absurd hscope (by simp [not_scope_of_element helement])
  · cases shape with
    | free => exact .inl hshape.2.2.1
    | text => exact .inl hshape.2.2.1
    | reference => exact .inl hshape.2.2.1
    | bare => exact .inl hshape.2.2
    | parts => exact .inr (hbare hshape.2.2.2.2)
    | gathered => exact .inr (hbare hshape.2.2.2.2)

/-- A prefix that stands for nothing is reported once for each element, attribute and scope that is written with it,
    and once more for each scope that has a local name, if the prefix stands for nothing around the scope. -/
theorem undefined_prefixes_reported (hparse : (start limit).parseAll sources = .ok parsed)
    (hresolve : parsed.resolve = .ok resolved) :
    let set := parsed.set
    let lacking := set.reachable.filter (set.tree.Unbound set.modules ·)
    let split := set.reachable.filter (set.tree.UnboundOutside set.modules ·)
    resolved.collection.entries = parsed.collection.entries ++ set.resolve.2.map (·.diagnostic) ∧
      ((set.resolve.2.filter (·.diagnostic.code = .namespacePrefixNotDefined)).map fun f =>
          (resolved.set.tree.origin? set.tree.size f.subject, f.diagnostic)).Perm
        ((lacking ++ split).map fun x => (some x, (set.tree.get x).prefixNotice)) ∧
      resolved.collection.entries.countP (·.code = .namespacePrefixNotDefined) = lacking.length + split.length := by
  intro set lacking split
  have hset := parsed_of_start hparse
  obtain ⟨scopes, hscopes⟩ := Config.leads_splitsInto hset (Config.start_leads_run set)
  have hperm := hset.prefixes_run hscopes fun s hs =>
    scope_items_or_definitions hparse ((hset.mem_scopes_iff hscopes).mp hs).1 (hscopes.named s hs).1
  rw [run_tree_eq hresolve] at hperm
  refine ⟨(resolve_spec hresolve).2, hperm, ?_⟩
  have hread : parsed.collection.entries.countP (·.code = .namespacePrefixNotDefined) = 0 := by
    refine List.countP_eq_zero.mpr fun d hd hcode => ?_
    have hreading := ofReading_of_start hparse d hd
    rw [of_decide_eq_true hcode] at hreading
    exact absurd hreading (by decide)
  have hlength := hperm.length_eq
  rw [List.length_map, List.length_map, List.length_append] at hlength
  rw [(resolve_spec hresolve).2, List.countP_append, hread, Nat.zero_add, List.countP_map, List.countP_eq_length_filter]
  exact hlength

/-- The prefix `p` is not defined, and stands before an element, an attribute, a scope and a part of a value. The
    prefix `s` is defined only in the scope with a local name that has it. -/
def prefixesSource : Source where
  name := "a.pxml"
  format := .xml
  text := ("!#q = u\n!d:\n    r:\n        p.x = 1\n        @p.b = 2\n        #p:\n            y = 3\n        #q.z:\n" ++
    "            w = 4\n        c:=\n            p.v = 5\n        #s.t:\n            !#s = k\n" ++
    "            s.e = 6\n").toList

theorem prefixesSource_reported : ∃ parsed resolved,
    (start none).parseAll [prefixesSource] = .ok parsed ∧ parsed.resolve = .ok resolved ∧ (let set := parsed.set
      ((set.resolve.2.filter (·.diagnostic.code = .namespacePrefixNotDefined)).map fun f =>
          (resolved.set.tree.origin? set.tree.size f.subject, f.diagnostic)).Perm
        (([4, 5, 6, 11] ++ [12]).map fun x => (some x, (set.tree.get x).prefixNotice))) ∧
      resolved.collection.entries.countP (·.code = .namespacePrefixNotDefined) = 5 := by
  obtain ⟨parsed, resolved, hparse, hresolve, hlacking, hsplit⟩ := exists_confirmed
    (show confirms none [prefixesSource] (fun parsed _ =>
      parsed.set.reachable.filter (parsed.set.tree.Unbound parsed.set.modules ·) = [4, 5, 6, 11] ∧
      parsed.set.reachable.filter (parsed.set.tree.UnboundOutside parsed.set.modules ·) = [12]) = true by
      decide +kernel)
  obtain ⟨-, hperm, hcount⟩ := undefined_prefixes_reported hparse hresolve
  rw [hlacking, hsplit] at hperm hcount
  exact ⟨parsed, resolved, hparse, hresolve, hperm, hcount⟩

/-- A scope with a local name whose prefix is not defined anywhere. -/
def strayScopeSource : Source where
  name := "a.pxml"
  format := .xml
  text := "!d:\n    #p.x:\n        y = 1\n".toList

/-- One pair is written with the prefix, and the same is reported twice. -/
theorem strayScopeSource_reported_twice : ∃ parsed resolved,
    (start none).parseAll [strayScopeSource] = .ok parsed ∧ parsed.resolve = .ok resolved ∧ (let set := parsed.set
      set.reachable.filter (set.tree.Unbound set.modules ·) = [2] ∧
        (set.reachable.filter fun x => (set.tree.get x).nsPrefix.isSome) = [2] ∧
        resolved.collection.entries = [(set.tree.get 2).prefixNotice, (set.tree.get 2).prefixNotice]) :=
  exists_confirmed (by decide +kernel)

end Session

end PairMarkup
