import PairMarkup.Proofs.Construction.Origins
import PairMarkup.Proofs.Expansion.Sources

namespace PairMarkup

open List Progress Config ModuleSet

/-- Whether a pair of this kind takes part in what is made of a document. -/
def Kind.takesPart (kind : Kind) : Bool := !kind.isComment && (!kind.isNamespaceDefinition && !kind.isAliasDefinition)

def Kind.format? : Kind → Option Format
  | .moduleRoot format => some format
  | _ => none

namespace Kind

variable {kind : Kind}

theorem takesPart_shape (kind : Kind) : kind.shape.takesPart = kind.takesPart := by
  cases kind <;> rfl

theorem format?_shape (kind : Kind) : kind.shape.format? = kind.format? := by
  cases kind <;> rfl

theorem plain_of_document (h : kind.isDocument) :
    kind.isAliasDefinition = false ∧ kind.isAliasUsage = false ∧ kind.isScope = false := by
  cases kind <;> cases h
  exact ⟨rfl, rfl, rfl⟩

theorem not_scope_of_module (h : kind.isModule) : kind.isScope = false := by
  cases kind <;> cases h
  rfl

theorem expandedKind?_of_document (h : kind.isDocument) : PairTree.expandedKind? kind = some .document := by
  cases kind <;> cases h
  rfl

end Kind

theorem ModuleSet.format?_eq (set : ModuleSet) (id : PairId) : set.format? id = (set.tree.kind id).format? := by
  rw [format?, PairTree.kind, PairTree.get, Array.getD_eq_getD_getElem?]
  cases set.tree.pairs[id]? with
  | none => rfl
  | some pair => cases hkind : pair.kind <;> simp [hkind, Kind.format?]

namespace PairTree

variable (t : PairTree) (limit : Nat)

/-- The pairs that are written in a document and take part in it. -/
def roots (document : PairId) : List PairId := (t.children document).filter fun c => (t.kind c).takesPart

/-- Of the pairs that are to be expanded in a row, those that take part. -/
def participants (os : List Occurrence) : List Occurrence := os.filter fun o => (t.kind o.pair).takesPart

/-- What is expanded in place of `o`, in one step or more. -/
def GivesWayTo : Occurrence → Occurrence → Prop :=
  Relation.ReflTransGen fun o q => expandedKind? (t.kind o.pair) = none ∧ q ∈ t.replacement limit o

/-- Two or more pairs are expanded in place of `o`. -/
def Multiplies (o : Occurrence) : Prop :=
  expandedKind? (t.kind o.pair) = none ∧ 1 < (t.participants (t.replacement limit o)).length

variable {t limit} {valueSteps n : Nat} {o : Occurrence} {os : List Occurrence} {result : List Expanded}

theorem replacement_eq_nil (limit : Nat) (h : (t.kind o.pair).takesPart = false) :
    expandedKind? (t.kind o.pair) = none ∧ t.replacement limit o = [] := by
  unfold replacement
  cases hkind : t.kind o.pair with
  | comment | namespaceDefinition | aliasDefinition _ => exact ⟨rfl, rfl⟩
  | _ =>
    rw [hkind] at h
    cases h

theorem participants_cons (o : Occurrence) (os : List Occurrence) : t.participants (o :: os) =
    if (t.kind o.pair).takesPart = true then o :: t.participants os else t.participants os :=
  filter_cons

/-- If each pair of a row makes one element at most, there are no more elements than pairs that take part. -/
theorem elements_expandAll_le (h : t.expandAll limit valueSteps n os = some result)
    (hone : ∀ o ∈ t.participants os, ∀ result, t.expandTo limit valueSteps n o = some result →
      result.countP (·.kind = .element) ≤ 1) :
    result.countP (·.kind = .element) ≤ (t.participants os).length := by
  rw [expandAll, Option.map_eq_some_iff] at h
  obtain ⟨parts, hparts, rfl⟩ := h
  induction os generalizing parts with
  | nil =>
    cases hparts
    exact Nat.zero_le _
  | cons o os ih =>
    rw [mapM_cons] at hparts
    simp only [bind, Option.bind_eq_some_iff] at hparts
    obtain ⟨first, hfirst, rest, hrest, hparts⟩ := hparts
    cases hparts
    rw [flatten_cons, countP_append]
    cases htakes : (t.kind o.pair).takesPart with
    | true =>
      rw [participants_cons, if_pos htakes] at hone ⊢
      have hself := hone o mem_cons_self first hfirst
      have hothers := ih (fun q hq => hone q (mem_cons_of_mem _ hq)) rest hrest
      rw [length_cons]
      omega
    | false =>
      rw [participants_cons, if_neg (Bool.eq_false_iff.mp htakes)] at hone ⊢
      have hempty : first = [] := by
        obtain ⟨hkind, hnil⟩ := replacement_eq_nil limit htakes
        cases n with
        | zero => cases hfirst
        | succ n =>
          rw [expandTo_of_replaced hkind, hnil] at hfirst
          cases hfirst
          rfl
      rw [hempty, countP_nil, Nat.zero_add]
      exact ih hone rest hrest

/-- A pair makes one element at most, unless it gives way to several pairs somewhere. -/
theorem elements_expandTo_le (h : t.expandTo limit valueSteps n o = some result)
    (hone : ∀ q, t.GivesWayTo limit o q → ¬ t.Multiplies limit q) : result.countP (·.kind = .element) ≤ 1 := by
  induction n generalizing o result with
  | zero => cases h
  | succ n ih =>
    cases hkind : expandedKind? (t.kind o.pair) with
    | some kind =>
      obtain ⟨e, rfl⟩ := expandTo_eq_singleton hkind h
      exact countP_le_length
    | none =>
      rw [expandTo_of_replaced hkind] at h
      have hfew : (t.participants (t.replacement limit o)).length ≤ 1 :=
        Nat.le_of_not_lt fun hmany => hone o .refl ⟨hkind, hmany⟩
      refine (elements_expandAll_le h fun q hq result hresult => ih hresult fun r hr => ?_).trans hfew
      exact hone r (.head ⟨hkind, mem_of_mem_filter hq⟩ hr)

theorem inside_sublist (o : Occurrence) (value : Option String) :
    ((t.inside o value).map Occurrence.pair).Sublist (t.children o.pair) := by
  simp only [inside]
  split
  · split
    · cases hreference : t.reference? o.pair with
      | none => exact nil_sublist _
      | some reference => exact singleton_sublist.mpr (reference?_mem hreference)
    · exact nil_sublist _
  · split
    · unfold blockOf
      split
      · exact nil_sublist _
      · rw [map_map]
        exact (map_id' (t.children o.pair)).symm ▸ List.Sublist.refl _
    · exact nil_sublist _

theorem participants_inside_le (o : Occurrence) (value : Option String) :
    (t.participants (t.inside o value)).length ≤ (t.roots o.pair).length := by
  have hsublist := (inside_sublist (t := t) o value).filter fun c => (t.kind c).takesPart
  rw [filter_map] at hsublist
  have hle := hsublist.length_le
  rw [length_map] at hle
  exact hle

/-- A document with one root has one element at most, unless the root gives way to several pairs somewhere. -/
theorem elements_document_le {document : PairId} {e : Expanded} (h : t.expandDocument? limit document = some e)
    (hroots : (t.roots document).length ≤ 1)
    (hone : ∀ root ∈ t.roots document, ∀ q, t.GivesWayTo limit ⟨root, .document, 0⟩ q → ¬ t.Multiplies limit q) :
    e.children.countP (·.kind = .element) ≤ 1 := by
  unfold expandDocument? at h
  split at h
  · rename_i hdocument
    have hkind : expandedKind? (t.kind document) = some .document := Kind.expandedKind?_of_document hdocument
    obtain ⟨result, hresult, hhead⟩ := Option.bind_eq_some_iff.mp h
    rw [stepBound] at hresult
    rw [expandTo_of_kept (o := ⟨document, .document, 0⟩) hkind, Option.bind_eq_some_iff] at hresult
    obtain ⟨found, -, hinside⟩ := hresult
    rw [Option.map_eq_some_iff] at hinside
    obtain ⟨children, hchildren, rfl⟩ := hinside
    cases hhead
    refine (elements_expandAll_le hchildren fun q hq result hresult => ?_).trans
      ((participants_inside_le _ _).trans hroots)
    obtain ⟨hq, htakes⟩ := mem_filter.mp hq
    obtain ⟨c, hc, rfl⟩ := mem_inside hq
    exact elements_expandTo_le hresult (hone c (mem_filter.mpr ⟨hc, htakes⟩))
  · cases h

end PairTree

namespace Progress

variable {p : Progress} {d : PairId} {branch : Option Branch}

theorem roots_eq (t : PairTree) (document : PairId) : (t.contentChildren document).filter (fun c =>
    !(t.kind c).isNamespaceDefinition && !(t.kind c).isAliasDefinition) = t.roots document := by
  rw [PairTree.contentChildren, filter_filter, PairTree.roots]
  exact filter_congr fun c _ => Bool.and_comm _ _

theorem noteKind_of_document (h : (p.tree.kind d).isDocument) {inner : Scope} :
    p.noteKind branch inner d = p.checkRoots branch d := by
  unfold noteKind
  cases hkind : p.tree.kind d <;> rw [hkind] at h <;> cases h

theorem roots_of_checkRoots (hnone : (p.checkRoots branch d).findings = [])
    (hformat : p.formatOf d = .xml) : (p.tree.roots d).length ≤ 1 := by
  simp only [checkRoots, roots_eq, hformat] at hnone
  rcases hroots : p.tree.roots d with _ | ⟨first, _ | ⟨second, more⟩⟩
  · exact Nat.zero_le _
  · exact le_rfl
  · rw [hroots] at hnone
    dsimp only at hnone
    rw [(report_spec ..).2] at hnone
    exact absurd (append_eq_nil_iff.mp hnone).2 (cons_ne_nil _ _)

end Progress

namespace PairTree

variable {t₀ t : PairTree} {scopes : List PairId} {d : PairId}

theorem SplitsInto.roots_eq (h : t₀.SplitsInto scopes t) (hwf₀ : t₀.WellFormed) (hd : d < t₀.size) (hmem : d ∉ scopes) :
    t.roots d = t₀.roots d := by
  have hchildren : t.children d = t₀.children d := h.get_eq_of_not_mem Pair.children (fun _ => rfl) hd hmem
  rw [roots, hchildren, roots]
  exact filter_congr fun c hc => h.flag_eq Kind.takesPart_shape (hwf₀.child_lt_ne hc).1

theorem lt_size_of_document (h : (t.kind d).isDocument) : d < t.size := lt_size_of_kind fun hcomment => by
    cases hkind : t.kind d <;> simp [hkind, Kind.isDocument, Kind.isComment] at h hcomment

end PairTree

namespace Config

open Progress WalkAction

variable {set : ModuleSet} {m : Config} {d : PairId}

/-- When a document is met, what is looked at is what was written. -/
theorem visit_roots (hset : set.Parsed) {n : Nat} {context : Context} {rest : List WalkAction} {p : Progress}
    (hm : Leads (start set) ⟨.visit (n + 1) context d :: rest, p⟩) (hdocument : (set.tree.kind d).isDocument) :
    (p.beginPair context.branch d).formatOf d = (initial set).formatOf d ∧
      (p.beginPair context.branch d).tree.roots d = set.tree.roots d := by
  have hwf₀ := hset.tree_parsed.wellFormed
  have hbegin : Edits (fun _ _ _ => True) (fun _ => True) p (p.beginPair context.branch d) :=
    beginPair_edits (fun _ _ _ _ => trivial) (wellFormed_of_leads hset hm) context.branch d
  obtain ⟨scopes, hscopes⟩ := hbegin.splitsInto hwf₀ (leads_splitsInto hset hm)
  have hlt := PairTree.lt_size_of_document hdocument
  have hmem := hscopes.not_mem_of_plain (Kind.plain_of_document hdocument).2.2
  refine ⟨?_, hscopes.roots_eq hwf₀ hlt hmem⟩
  have hmodules : (p.beginPair context.branch d).set.modules = set.modules :=
    (beginPair_noted p context.branch d).modules_eq.trans (leads_tracked hset hm).2.modules_eq
  have hindex : ((p.beginPair context.branch d).tree.get d).fileIndex = (set.tree.get d).fileIndex :=
    hscopes.get_eq_of_not_mem Pair.fileIndex (fun _ => rfl) hlt hmem
  rw [formatOf, hmodules, hindex]
  change ((set.modules[_]?).bind _).getD _ = ((set.modules[(set.tree.get d).fileIndex]?).bind set.format?).getD _
  refine congrArg (Option.getD · Format.xml) (Option.bind_congr fun m hm => ?_)
  rw [format?_eq, format?_eq]
  exact hscopes.flag_eq Kind.format?_shape (hset.tree_parsed.module_lt_size (mem_of_getElem? hm))

/-- While nothing is reported, the documents that were met have one root each at most. -/
theorem leads_roots (hset : set.Parsed) (hm : Leads (start set) m) :
    m.progress.findings = [] → ∀ d ∈ m.progress.handled, (set.tree.kind d).isDocument →
      (initial set).formatOf d = .xml → (set.tree.roots d).length ≤ 1 := by
  refine induction_on (P := fun m => m.progress.findings = [] → ∀ d ∈ m.progress.handled,
    (set.tree.kind d).isDocument = true → (initial set).formatOf d = .xml → (set.tree.roots d).length ≤ 1) ?_ ?_ hm
  · intro _ d hd
    rw [(start_noted set).handled_eq] at hd
    cases hd
  · intro m m' hm ih hstep hnone d hd hdocument hformat
    have hwf := wellFormed_of_leads hset hm
    have hkind := (leads_flag hset Kind.isDocument_shape rfl hm d).trans hdocument
    obtain ⟨action, rest, p⟩ := hstep
    have hbefore : p.findings = [] := (action.perform_edits hwf).findings_eq_nil hnone
    rcases action.perform_handled p with heq | ⟨n, context, x, rfl, hdef, heq⟩
    · change d ∈ (action.perform p).2.handled at hd
      rw [heq] at hd
      exact ih hbefore d hd hdocument hformat
    · change d ∈ (WalkAction.perform (.visit (n + 1) context x) p).2.handled at hd
      rw [heq] at hd
      rcases mem_cons.mp hd with rfl | hd
      · obtain ⟨hsame, hroots⟩ := visit_roots hset hm hdocument
        change (ofVisit n context d p).2.findings = [] at hnone
        rw [ofVisit_plain n context hwf hdef (Kind.plain_of_document hkind).2.1] at hnone
        have hchecked : (p.beginPair context.branch d).noteKind context.branch
            ((p.beginPair context.branch d).tree.enter d context.scope) d =
              (p.beginPair context.branch d).checkRoots context.branch d :=
          noteKind_of_document ((flag_beginPair hwf context.branch d Kind.isDocument_shape).trans hkind)
        rw [hchecked] at hnone
        rw [← hroots]
        exact roots_of_checkRoots hnone (hsame.trans hformat)
      · exact ih hbefore d hd hdocument hformat

end Config

/-- If resolving finds nothing, every document in XML has one root at most. -/
theorem ModuleSet.Parsed.run_roots {set : ModuleSet} (hset : set.Parsed) (hstamped : set.Stamped)
    (hnone : (run set).findings = []) {m d : PairId} (hm : m ∈ set.modules)
    (hformat : (run set).set.format? m = some .xml) (hd : d ∈ (run set).set.documents m) :
    ((run set).tree.roots d).length ≤ 1 := by
  have hrun := start_leads_run set
  have hwf₀ := hset.tree_parsed.wellFormed
  obtain ⟨hchild, hkind⟩ := mem_filter.mp hd
  have hdocument : (set.tree.kind d).isDocument := (leads_flag hset Kind.isDocument_shape rfl hrun d).symm.trans hkind
  have hplain : ((run set).tree.kind d).isAliasDefinition = false := (Kind.plain_of_document hkind).1
  have hhandled : d ∈ (run set).handled :=
    hset.mem_handled_run_iff.mpr ⟨⟨m, hm, .single (mem_append_left _ hchild)⟩, hplain⟩
  obtain ⟨scopes, hscopes⟩ := leads_splitsInto hset hrun
  have hm₀ := hset.tree_parsed.module_lt_size hm
  have hwritten : d ∈ set.tree.children m := by
    have hmodule : m ∉ scopes := hscopes.not_mem_of_plain (Kind.not_scope_of_module (hset.tree_parsed.module_kind m hm))
    have hsame : (run set).tree.children m = set.tree.children m :=
      hscopes.get_eq_of_not_mem Pair.children (fun _ => rfl) hm₀ hmodule
    exact hsame ▸ hchild
  have hxml : (initial set).formatOf d = .xml := by
    obtain ⟨i, hi⟩ := mem_iff_getElem?.mp hm
    have hindex : (set.tree.get d).fileIndex = i :=
      congrArg Prod.snd (hstamped i m hi d (.single (mem_append_left _ hwritten)))
    have hsame : set.format? m = some .xml := by
      rw [format?_eq] at hformat ⊢
      exact (hscopes.flag_eq Kind.format?_shape hm₀).symm.trans hformat
    change (set.modules[(set.tree.get d).fileIndex]?.bind set.format?).getD .xml = .xml
    rw [hindex, hi, Option.bind_some, hsame, Option.getD_some]
  have hroots : (run set).tree.roots d = set.tree.roots d :=
    hscopes.roots_eq hset.tree_parsed.wellFormed (PairTree.lt_size_of_document hdocument)
      (hscopes.not_mem_of_plain (Kind.plain_of_document hdocument).2.2)
  rw [hroots]
  exact leads_roots hset hrun hnone d hhandled hdocument hxml

namespace Session

/-- If nothing is reported, a document in XML has one root at most. It has no more than one element, unless its root
    gives way to several pairs on the way to what is shown. -/
theorem single_root_unless_multiplied {limit : Option Nat} {sources : List Source} {parsed resolved : Session}
    (hparse : (start limit).parseAll sources = .ok parsed) (hresolve : parsed.resolve = .ok resolved)
    (hclean : resolved.collection.entries = []) {m : PairId} (hm : m ∈ resolved.set.modules)
    (hformat : resolved.set.format? m = some .xml) (maxDepth : Nat) {e : Expanded}
    (he : e ∈ resolved.set.expandModule maxDepth m) :
    let t := resolved.set.tree
    ∃ d ∈ resolved.set.documents m, t.expandDocument? maxDepth d = some e ∧ (t.roots d).length ≤ 1 ∧
      (e.children.countP (·.kind = .element) ≤ 1 ∨
        ∃ root ∈ t.roots d, ∃ o, t.GivesWayTo maxDepth ⟨root, .document, 0⟩ o ∧ t.Multiplies maxDepth o) := by
  obtain ⟨d, hd, hexpand⟩ := List.mem_filterMap.mp he
  have hroots : (resolved.set.tree.roots d).length ≤ 1 := by
    rw [← modules_eq hparse hresolve] at hm
    rw [(resolve_spec hresolve).1] at hformat hd ⊢
    exact (parsed_of_start hparse).run_roots (stamped_of_start hparse) (findings_eq_nil hresolve hclean) hm hformat hd
  refine ⟨d, hd, hexpand, hroots, ?_⟩
  by_cases hmany : ∃ root ∈ resolved.set.tree.roots d, ∃ o,
      resolved.set.tree.GivesWayTo maxDepth ⟨root, .document, 0⟩ o ∧ resolved.set.tree.Multiplies maxDepth o
  · exact .inr hmany
  · refine .inl (PairTree.elements_document_le hexpand hroots fun root hroot o ho hmultiplies => hmany ?_)
    exact ⟨root, hroot, o, ho, hmultiplies⟩

/-- An alias with two elements, used in the root of a document. -/
def singleRootSource : Source where
  name := "a.pxml"
  format := .xml
  text := "!$a:\n    x = 1\n    y = 2\n!d:\n    r:\n        $a\n".toList

theorem singleRootSource_one_element : ∃ parsed resolved e,
    (start none).parseAll [singleRootSource] = .ok parsed ∧ parsed.resolve = .ok resolved ∧
      resolved.collection.entries = [] ∧ 0 ∈ resolved.set.modules ∧ resolved.set.format? 0 = some .xml ∧
      e ∈ resolved.set.expandModule 3 0 ∧ e.children.countP (·.kind = .element) ≤ 1 := by
  obtain ⟨parsed, resolved, hparse, hresolve, hcheck⟩ := exists_confirmed
    (show confirms none [singleRootSource] (fun _ resolved =>
      resolved.collection.entries = [] ∧ 0 ∈ resolved.set.modules ∧ resolved.set.format? 0 = some .xml ∧
        resolved.set.documents 0 = [4] ∧ resolved.set.tree.roots 4 = [5] ∧ (resolved.set.tree.kind 5).isElement = true ∧
        (resolved.set.expandModule 3 0).length = 1) = true by decide +kernel)
  obtain ⟨hclean, hm, hformat, hdocuments, hroots, helement, hlength⟩ := hcheck
  obtain ⟨e, he⟩ := List.length_eq_one_iff.mp hlength
  have hmem : e ∈ resolved.set.expandModule 3 0 := he ▸ List.mem_singleton_self e
  refine ⟨parsed, resolved, e, hparse, hresolve, hclean, hm, hformat, hmem, ?_⟩
  obtain ⟨d, hd, -, -, hone | ⟨root, hroot, o, ho, hmultiplies⟩⟩ :=
    single_root_unless_multiplied hparse hresolve hclean hm hformat 3 hmem
  · exact hone
  · -- The root is an element, and nothing else is expanded in its place.
    rw [hdocuments, List.mem_singleton] at hd
    subst hd
    rw [hroots, List.mem_singleton] at hroot
    subst hroot
    have hshown : PairTree.expandedKind? (resolved.set.tree.kind 5) ≠ none := by
      cases hkind : resolved.set.tree.kind 5 <;> rw [hkind] at helement <;> cases helement
      exact Option.some_ne_none _
    rcases ho.cases_head with rfl | ⟨q, hq, -⟩
    · exact absurd hmultiplies.1 hshown
    · exact absurd hq.1 hshown

/-- The same alias as the root of a document. -/
def multipliedRootSource : Source where
  name := "a.pxml"
  format := .xml
  text := "!$a:\n    x = 1\n    y = 2\n!d:\n    $a\n".toList

/-- Nothing is reported, and the document has two elements. -/
theorem multipliedRootSource_two_elements : ∃ parsed resolved,
    (start none).parseAll [multipliedRootSource] = .ok parsed ∧ parsed.resolve = .ok resolved ∧
      resolved.collection.entries = [] ∧ 0 ∈ resolved.set.modules ∧ resolved.set.format? 0 = some .xml ∧
      (resolved.set.expandModule 3 0).map (fun e => e.children.countP (·.kind = .element)) = [2] :=
  exists_confirmed (by decide +kernel)

end Session

end PairMarkup
