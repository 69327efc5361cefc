import PairMarkup.Proofs.Expansion.Renumbering
import PairMarkup.Proofs.Resolution.Splitting

namespace PairMarkup

namespace PairTree

/-- The scope written out: it keeps its prefix and holds one element, which has its name, its text and
    all that it held. -/
def nestScope (t : PairTree) (s : PairId) : PairTree :=
  let pair := t.get s
  let element :=
    { innerElement pair with
      value := pair.value
      items := pair.items
      children := pair.children
      parent := some s }
  ((t.add element).2.setParents pair.held (some t.size)).modify s fun pair =>
    { pair with name := none, value := none, items := none, children := [t.size], valueKind := .object }

variable {t : PairTree} {s : PairId}

theorem nestScope_eq_splitScope (hwf : t.WellFormed) (hnamed : t.NamedScope s) (hvalue : (t.get s).value = none)
    (hitems : (t.get s).items = none) : t.nestScope s = t.splitScope s := by
  have hs := hnamed.lt_size
  have hsplit := isSplit_splitScope hwf hnamed
  have hheld : (t.get s).held = t.children s := by
    rw [Pair.held, hitems]
    exact List.append_nil _
  have hfresh : t.size ∉ t.children s := fun hmem => lt_irrefl _ (hwf.child_lt_ne hmem).1
  refine ext_get ?_ fun x => ?_
  · rw [nestScope, size_modify, size_setParents, size_add, hsplit.size_eq]
  · rw [nestScope, get_modify, size_setParents, size_add, get_setParents, get_add, size_add, hheld]
    by_cases hnew : x = t.size
    · rw [hnew, hsplit.element, if_neg fun h => hs.ne h.1.symm, if_neg fun h => hfresh h.1, if_pos rfl,
        hvalue, hitems]
      rfl
    · by_cases hxs : x = s
      · rw [hxs, hsplit.scope, if_pos ⟨rfl, Nat.lt_succ_of_lt hs⟩, if_neg fun h => (hwf.child_lt_ne h.1).2 rfl,
          if_neg hs.ne, ← hvalue, ← hitems]
      · rw [if_neg fun h => hxs h.1, if_neg hnew]
        by_cases hx : x ∈ t.children s
        · rw [hsplit.child x hx, if_pos ⟨hx, Nat.lt_succ_of_lt (hwf.child_lt_ne hx).1⟩]
        · rw [hsplit.other x hnew hxs hx, if_neg fun h => hx h.1]

instance (t : PairTree) (s : PairId) : Decidable (t.Seamless s) :=
  decidable_of_iff (∀ d ∈ List.range t.size, (t.kind d).isAliasDefinition = true → s ∈ t.ancestors d →
    ¬ t.Shadows s) <| by
    refine ⟨fun h d hdef => h d (List.mem_range.mpr (lt_size_of_definition hdef)) hdef, fun h d _ => h d⟩

end PairTree

/-- The unit with a scope written out. -/
def ModuleSet.nestScope (set : ModuleSet) (s : PairId) : ModuleSet := { set with tree := set.tree.nestScope s }

/-- Documents come out the same, whether a scope is split before the walk or when the walk comes to it. -/
theorem ModuleSet.Parsed.expand_splitScope {set : ModuleSet} {s : PairId} (hset : set.Parsed)
    (hrooted : set.tree.Rooted set.modules s) (hnamed : set.tree.NamedScope s) (hseamless : set.tree.Seamless s)
    (depth : Nat) : (set.splitScope s).resolve.1.expand depth = set.resolve.1.expand depth := by
  obtain ⟨φ, hrenumbers, hmodules⟩ := hset.run_splitScope_renumbers hrooted hnamed hseamless
  refine expand_eq_of_renumbers hmodules (fun m hm => ?_) hrenumbers depth
  have hrun : (Progress.run set).set.modules = set.modules := hset.run_tracked.modules_eq
  exact hset.run_tracked.covered.module_kind m (hrun ▸ hm)

namespace Session

/-- Where no definition is inside of a scope that shadows its own prefix, a scope with a local name that is
    below a module may be split before resolving, and the documents are the same at every depth. So they
    are if the scope is written out, unless it has a text. -/
theorem named_scopes_expand_as_written_out {limit : Option Nat} {sources : List Source} {parsed : Session}
    (hparse : (start limit).parseAll sources = .ok parsed) {s : PairId}
    (hrooted : parsed.set.tree.Rooted parsed.set.modules s) (hnamed : parsed.set.tree.NamedScope s)
    (hseamless : parsed.set.tree.Seamless s) (depth : Nat) :
    (parsed.set.splitScope s).resolve.1.expand depth = parsed.set.resolve.1.expand depth ∧
      ((parsed.set.tree.get s).value = none → (parsed.set.tree.get s).items = none →
        (parsed.set.nestScope s).resolve.1.expand depth = parsed.set.resolve.1.expand depth) := by
  have hset := parsed_of_start hparse
  have hsplit := hset.expand_splitScope hrooted hnamed hseamless depth
  refine ⟨hsplit, fun hvalue hitems => ?_⟩
  have htree := PairTree.nestScope_eq_splitScope hset.tree_parsed.wellFormed hnamed hvalue hitems
  rw [ModuleSet.nestScope, htree]
  exact hsplit

/-- A scope with a local name and a definition in it, which is used in front of the scope and in it. -/
def blockScopeSource : Source where
  name := "a.pxml"
  format := .xml
  text := ("!#p = urn:p\n!d:\n    r:\n        $x\n        #p.foo:\n            !$x:\n" ++
    "                bar = 1\n            $x\n").toList

theorem blockScopeSource_written_out : ∃ parsed,
    (start none).parseAll [blockScopeSource] = .ok parsed ∧ parsed.set.tree.Rooted parsed.set.modules 5 ∧
      parsed.set.tree.NamedScope 5 ∧ parsed.set.tree.Seamless 5 ∧ (parsed.set.tree.get 5).value = none ∧
      (parsed.set.tree.get 5).items = none ∧
      (parsed.set.splitScope 5).resolve.1.expand 3 = parsed.set.resolve.1.expand 3 ∧
      (parsed.set.nestScope 5).resolve.1.expand 3 = parsed.set.resolve.1.expand 3 := by
  obtain ⟨parsed, resolved, hparse, -, hcheck⟩ := exists_confirmed
    (show confirms none [blockScopeSource] (fun parsed _ =>
      let t := parsed.set.tree
      0 ∈ parsed.set.modules ∧ 0 ∈ t.ancestors 5 ∧ t.NamedScope 5 ∧ t.Seamless 5 ∧
        (t.get 5).value = none ∧ (t.get 5).items = none) = true by decide +kernel)
  obtain ⟨hm, hroot, hnamed, hseamless, hvalue, hitems⟩ := hcheck
  have hrooted : parsed.set.tree.Rooted parsed.set.modules 5 :=
    ⟨0, hm, (parsed_of_start hparse).tree_parsed.wellFormed.hangsFrom_iff.mpr (.inr hroot)⟩
  obtain ⟨hsplit, hnest⟩ := named_scopes_expand_as_written_out hparse hrooted hnamed hseamless 3
  exact ⟨parsed, hparse, hrooted, hnamed, hseamless, hvalue, hitems, hsplit, hnest hvalue hitems⟩

def textScopeSource : Source where
  name := "a.pxml"
  format := .xml
  text := "!#p = urn:p\n!d:\n    #p.x = text\n".toList

/-- The text of a scope is not in the document. Were the scope written out, it would be. -/
theorem textScopeSource_loses_text : ∃ parsed resolved,
    (start none).parseAll [textScopeSource] = .ok parsed ∧ parsed.resolve = .ok resolved ∧
      resolved.collection.entries = [] ∧ parsed.set.tree.Rooted parsed.set.modules 3 ∧
      parsed.set.tree.NamedScope 3 ∧ parsed.set.tree.Seamless 3 ∧
      (parsed.set.tree.get 3).value = some "text" ∧
      (resolved.set.expand 3).map (fun e => e.children.map fun c => (c.name, c.value)) = [[("x", none)]] ∧
      ((parsed.set.nestScope 3).resolve.1.expand 3).map (fun e => e.children.map fun c => (c.name, c.value)) =
        [[("x", some "text")]] := by
  obtain ⟨parsed, resolved, hparse, hresolve, hcheck⟩ := exists_confirmed
    (show confirms none [textScopeSource] (fun parsed resolved =>
      let t := parsed.set.tree
      resolved.collection.entries = [] ∧ (0 ∈ parsed.set.modules ∧ 0 ∈ t.ancestors 3) ∧ t.NamedScope 3 ∧
        t.Seamless 3 ∧ (t.get 3).value = some "text" ∧
        (resolved.set.expand 3).map (fun e => e.children.map fun c => (c.name, c.value)) = [[("x", none)]] ∧
        ((parsed.set.nestScope 3).resolve.1.expand 3).map (fun e => e.children.map fun c => (c.name, c.value)) =
          [[("x", some "text")]]) = true by decide +kernel)
  obtain ⟨hentries, ⟨hm, hroot⟩, hfacts⟩ := hcheck
  have hwf := (parsed_of_start hparse).tree_parsed.wellFormed
  exact ⟨parsed, resolved, hparse, hresolve, hentries, ⟨0, hm, hwf.hangsFrom_iff.mpr (.inr hroot)⟩, hfacts⟩

/-- A scope that shadows its own prefix has no text here, but the definition in it is come to before the
    scope is split, and is given another default namespace than it would be given in the scope written out. -/
theorem shadowingSource_written_out_differs : ∃ parsed resolved,
    (start none).parseAll [shadowingSource] = .ok parsed ∧ parsed.resolve = .ok resolved ∧
      parsed.set.tree.NamedScope 5 ∧ (parsed.set.tree.get 5).value = none ∧
      (parsed.set.tree.get 5).items = none ∧
      (resolved.set.expand 3).map (fun e => e.children.flatMap fun r => r.children.map fun c =>
        (c.name, c.namespaceUri)) = [[("bar", some "inner"), ("foo", some "inner")]] ∧
      ((parsed.set.nestScope 5).resolve.1.expand 3).map (fun e => e.children.flatMap fun r =>
        r.children.map fun c => (c.name, c.namespaceUri)) =
        [[("bar", some "outer"), ("foo", some "inner")]] :=
  exists_confirmed (by decide +kernel)

end Session

end PairMarkup
