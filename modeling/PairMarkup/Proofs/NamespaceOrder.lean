import PairMarkup.Proofs.Construction.Modules
import PairMarkup.Proofs.Construction.Order
import PairMarkup.Proofs.Resolution.Written

namespace PairMarkup

open Line

namespace PairTree

variable {t t' : PairTree} {scopes : List PairId} {x root : PairId}

theorem Settles.isNamespaceDefinition_eq (h : Settles root t t') (x : PairId) :
    (t'.kind x).isNamespaceDefinition = (t.kind x).isNamespaceDefinition := by
  rw [← Kind.isNamespaceDefinition_unplaced, h.unplaced_eq, Kind.isNamespaceDefinition_unplaced]

theorem Settles.ordered (h : Settles root t t') (hordered : t.Ordered) : t'.Ordered := by
  have hsublist : ∀ x, List.Sublist (t'.children x) (t.children x) := by
    intro x
    rcases h.outcome x with hkept | hgathered
    · rw [hkept.children_eq]
    · rw [hgathered.children_eq]
      exact List.filter_sublist
  refine ⟨fun x c hc => ?_, fun x => ?_⟩
  · rw [h.size_eq]
    exact hordered.inside x c ((hsublist x).subset hc)
  · have hleading : t.Leading (t'.children x) := (hordered.leading x).sublist (hsublist x)
    exact hleading.congr (fun c _ => h.isComment_eq c) fun c _ => h.isNamespaceDefinition_eq c

theorem SplitsInto.children_cases (h : t.SplitsInto scopes t') (x : PairId) :
    ∃ y, t'.children x = t.children y ∨ t'.children x = [y] := by
  rcases lt_or_ge x t.size with hx | hx
  · have hchildren : t'.children x = if x ∈ scopes then [t.elementOf scopes x] else t.children x :=
      (Pair.children_eq_of_written (h.kept x hx)).trans rfl
    split at hchildren
    · exact ⟨_, .inr hchildren⟩
    · exact ⟨x, .inl hchildren⟩
  · rcases lt_or_ge x t'.size with hlt | hle
    · obtain ⟨s, hs, rfl⟩ := h.exists_elementOf hx hlt
      exact ⟨s, .inl (h.children_element hs)⟩
    · exact ⟨t.size, .inl ((children_eq_nil hle).trans (children_eq_nil (le_refl t.size)).symm)⟩

theorem SplitsInto.leading (h : t.SplitsInto scopes t') (hordered : t.Ordered) (x : PairId) :
    t'.Leading (t'.children x) := by
  obtain ⟨y, hsame | hone⟩ := h.children_cases x
  · rw [hsame]
    apply (hordered.leading y).congr
    · exact fun c hc => h.flag_eq Kind.isComment_shape (hordered.inside y c hc)
    · exact fun c hc => h.flag_eq Kind.isNamespaceDefinition_shape (hordered.inside y c hc)
  · rw [hone]
    exact List.pairwise_singleton ..

end PairTree

namespace ModuleSet

open PairTree

variable {set set' : ModuleSet} {file : String} {format : Format} {text : List Char} {fault : Fault} {b : Builder}
  {parent : PairId} {pair : Pair}

/-- Reading a text comes to the point where the tree of `b` is to take `pair` into `parent`. -/
def Offers (set : ModuleSet) (source : Source) (b : Builder) (parent : PairId) (pair : Pair) : Prop :=
  Builder.Offers (set.nextSite source.name source.format) (set.opened source.name source.format)
    (Line.ofText source.text) b parent pair

theorem opened_tidy (h : set.Parsed) (hordered : set.tree.Ordered) (file : String) (format : Format) :
    (set.opened file format).Tidy (set.addModule file format).2.modules (set.nextSite file format) where
  toSound := (opened_ahead h file format).toSound
  ordered := by
    have hmade : Strokes _ set.tree.size set.tree (set.opened file format).tree := .single (.make rfl rfl)
    exact hmade.ordered le_rfl hordered
  root_accepts := by
    change (set.opened file format).tree.acceptsChildren set.tree.size = true
    rw [tree_opened, acceptsChildren, get_add_self]
    rfl
  head_blocks := rfl

theorem parse_ordered (h : set.Parsed) (hordered : set.tree.Ordered)
    (hok : (set.parse file format text).result = .ok set') : set'.tree.Ordered := by
  obtain ⟨b, hlines, rfl⟩ := parse_eq_ok hok
  have hroot := set.root_mem_modules file format
  have htidy := (opened_tidy h hordered file format).addLines hroot hlines
  obtain ⟨-, hahead, -⟩ := (opened_ahead h file format).addLines_adds hroot (ofText_inOrder text) hlines
  exact (Builder.finish_settles hahead.parsed hroot hahead.apart).1.ordered htidy.ordered

theorem parse_eq_error_iff {source : Source} (h : set.Parsed) (hordered : set.tree.Ordered) :
    (set.parse source.name source.format source.text).result = .error fault ↔
      ∃ b parent pair, set.Offers source b parent pair ∧ b.Disorders parent pair ∧ fault = pair.outOfOrder := by
  have hlines : ∀ halt, (ofText source.text).foldlM (Builder.addLine (set.nextSite source.name source.format))
      (set.opened source.name source.format) = .error halt ↔ _ := fun halt =>
    (opened_tidy h hordered source.name source.format).addLines_eq_error_iff
      (set.root_mem_modules source.name source.format)
  rw [result_parse]
  constructor
  · intro hfails
    cases hbuilt : (ofText source.text).foldlM (Builder.addLine (set.nextSite source.name source.format))
        (set.opened source.name source.format) with
    | ok b =>
      rw [hbuilt] at hfails
      cases hfails
    | error halt =>
      rw [hbuilt] at hfails
      cases hfails
      obtain ⟨b, parent, pair, hoffers, hdisorders, rfl⟩ := (hlines halt).mp hbuilt
      exact ⟨b, parent, pair, hoffers, hdisorders, rfl⟩
  · rintro ⟨b, parent, pair, hoffers, hdisorders, rfl⟩
    rw [(hlines _).mpr ⟨b, parent, pair, hoffers, hdisorders, rfl⟩]
    rfl

end ModuleSet

namespace Session

open PairTree

variable {limit : Option Nat} {sources : List Source} {s s' parsed : Session}

theorem ordered_of_start (hparse : (start limit).parseAll sources = .ok s) : s.set.tree.Ordered := by
  have hempty : ∀ x, PairTree.empty.children x = [] := fun x => children_eq_nil (Nat.zero_le x)
  refine start_induction (P := fun set => set.tree.Ordered) ⟨fun x c hc => ?_, fun x => ?_⟩
    ModuleSet.parse_ordered hparse
  · rw [ModuleSet.empty, hempty] at hc
    cases hc
  · rw [ModuleSet.empty, hempty]
    exact .nil

/-- In a resolved unit namespace definitions come first in every pair. When one more text is read, a pair is refused
    for its order just if it would change that, and reading fails just if a pair is refused so. -/
theorem namespaceDefinitions_lead (hparse : (start limit).parseAll sources = .ok parsed) :
    (∀ resolved, parsed.resolve = .ok resolved → ∀ x, resolved.set.tree.Leading (resolved.set.tree.children x)) ∧
    ∀ source : Source, (∀ b parent pair, parsed.set.Offers source b parent pair →
        ((b.tree.add pair).2.append parent b.tree.size = .error pair.outOfOrder ↔ b.Disorders parent pair)) ∧
      ∀ collection, parsed.collection.receiveAll
          (parsed.set.parse source.name source.format source.text).log = .ok collection →
        ∀ fault, parsed.parse source = .error ⟨.structural fault, collection.entries⟩ ↔
          ∃ b parent pair, parsed.set.Offers source b parent pair ∧ b.Disorders parent pair ∧
            fault = pair.outOfOrder := by
  have hset := parsed_of_start hparse
  have hordered := ordered_of_start hparse
  refine ⟨fun resolved hresolve => ?_, fun source => ⟨fun b parent pair hoffers => ?_, fun collection hlog fault => ?_⟩⟩
  · obtain ⟨scopes, hscopes⟩ := Config.leads_splitsInto hset (Config.start_leads_run parsed.set)
    rw [run_tree_eq hresolve] at hscopes
    exact hscopes.leading hordered
  · exact (ModuleSet.opened_tidy hset hordered source.name source.format).append_offered_eq_error_iff
      (parsed.set.root_mem_modules source.name source.format) hoffers
  · rw [← ModuleSet.parse_eq_error_iff hset hordered]
    simp only [parse_eq_accept, accept, hlog]
    cases (parsed.set.parse source.name source.format source.text).result with
    | ok set => simp
    | error fault' => simp

/-- Namespace definitions among comments, and below a scope. -/
def remarkedSource : Source where
  name := "a.pxml"
  format := .xml
  text := ("''' one\n!#p = urn:p\n''' two\n!#q = urn:q\n!d:\n    ''' three\n    !#r = urn:r\n" ++
    "    #q.x:\n        !#s = urn:s\n        y = 1\n").toList

/-- A namespace definition that comes too late. -/
def belatedSource : Source where
  name := "b.pxml"
  format := .xml
  text := "!d:\n    y = 1\n    !#r = urn:r\n".toList

theorem remarkedSource_leads : ∃ parsed resolved,
    (start none).parseAll [remarkedSource] = .ok parsed ∧ parsed.resolve = .ok resolved ∧ (let t := resolved.set.tree
      (t.children 0 = [1, 2, 3, 4, 5] ∧ t.children 5 = [6, 7, 8] ∧ t.children 8 = [11] ∧ t.children 11 = [9, 10] ∧
        (List.range t.size).filter (fun x => (t.kind x).isNamespaceDefinition) = [2, 4, 7, 9]) ∧
      ∀ x, t.Leading (t.children x)) ∧
      parsed.parse belatedSource = .error ⟨.structural (.namespaceDefinitionOutOfOrder "r" 3 5), []⟩ ∧
      ∃ b parent pair, parsed.set.Offers belatedSource b parent pair ∧ b.Disorders parent pair ∧
        .namespaceDefinitionOutOfOrder "r" 3 5 = pair.outOfOrder := by
  obtain ⟨parsed, resolved, hparse, hresolve, hcheck⟩ := exists_of_confirms
    (show confirms none [remarkedSource] (fun parsed resolved =>
      let t := resolved.set.tree
      decide (t.children 0 = [1, 2, 3, 4, 5] ∧ t.children 5 = [6, 7, 8] ∧ t.children 8 = [11] ∧
        t.children 11 = [9, 10] ∧ (List.range t.size).filter (fun x => (t.kind x).isNamespaceDefinition) =
          [2, 4, 7, 9]) &&
      decide ((parsed.set.parse belatedSource.name belatedSource.format belatedSource.text).log = [] ∧
        parsed.collection.entries = []) &&
      match parsed.parse belatedSource with
      | .ok _ => false
      | .error stopped => stopped = ⟨.structural (.namespaceDefinitionOutOfOrder "r" 3 5), []⟩) = true by
      decide +kernel)
  simp only [Bool.and_eq_true, decide_eq_true_eq] at hcheck
  obtain ⟨⟨hpairs, hlog, hentries⟩, hfails⟩ := hcheck
  have hbelated : parsed.parse belatedSource = .error ⟨.structural (.namespaceDefinitionOutOfOrder "r" 3 5), []⟩ := by
    split at hfails
    · cases hfails
    · rename_i stopped hstopped
      rw [hstopped, of_decide_eq_true hfails]
  obtain ⟨hleads, hmore⟩ := namespaceDefinitions_lead hparse
  refine ⟨parsed, resolved, hparse, hresolve, ⟨hpairs, hleads resolved hresolve⟩, hbelated, ?_⟩
  refine ((hmore belatedSource).2 parsed.collection ?_ _).mp ?_
  · rw [hlog]
    rfl
  · rw [hentries]
    exact hbelated

end Session

end PairMarkup
