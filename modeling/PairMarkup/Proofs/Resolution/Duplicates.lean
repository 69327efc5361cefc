import PairMarkup.Proofs.Resolution.Ledger

namespace PairMarkup

open List

namespace PairTree

variable {t₀ t : PairTree} {scopes : List PairId} {x y : PairId}

theorem elementOf_inj {s s' : PairId} (hs : s ∈ scopes) (h : t₀.elementOf scopes s = t₀.elementOf scopes s') :
    s = s' :=
  (idxOf_inj hs).mp (Nat.add_left_cancel h)

/-- A scope that was split stems from itself, and so does its element. -/
theorem SplitsInto.origin?_eq_some_iff (h : t₀.SplitsInto scopes t) (hwf : t.WellFormed) (hx : x < t₀.size)
    (hy : y < t.size) : t.origin? t₀.size y = some x ↔ y = x ∨ x ∈ scopes ∧ y = t₀.elementOf scopes x := by
  have hle : ∀ s, t₀.size ≤ t₀.elementOf scopes s := fun s => Nat.le_add_right _ _
  rcases lt_or_ge y t₀.size with hold | hnew
  · rw [origin?_of_lt t hold, Option.some.injEq]
    refine ⟨.inl, ?_⟩
    rintro (heq | ⟨-, rfl⟩)
    · exact heq
    · exact absurd hold (Nat.not_lt.mpr (hle x))
  · obtain ⟨s, hs, rfl⟩ := h.exists_elementOf hnew hy
    have hparent : t.parent? (t₀.elementOf scopes s) = some s := (congrArg Pair.parent (h.element s hs) :)
    rw [hwf.origin?_of_parent hnew hparent, origin?_of_lt t (h.named s hs).lt_size, Option.some.injEq]
    constructor
    · rintro rfl
      exact .inr ⟨hs, rfl⟩
    · rintro (rfl | ⟨-, heq⟩)
      · exact absurd hx (Nat.not_lt.mpr hnew)
      · exact elementOf_inj hs heq

end PairTree

theorem flatMap_ite_nil {α β : Type} (p : α → Prop) [DecidablePred p] (l : List α) (bs : List β) :
    (l.flatMap fun a => if p a then bs else []) = (List.replicate (l.countP (p ·)) bs).flatten := by
  induction l with
  | nil => rfl
  | cons a l ih =>
    rw [flatMap_cons, ih]
    by_cases ha : p a
    · rw [if_pos ha, countP_cons_of_pos (by simpa using ha), replicate_succ, flatten_cons]
    · rw [if_neg ha, countP_cons_of_neg (by simpa using ha), nil_append]

/-- The findings with one code about one of the pairs `ids`. -/
def ModuleSet.findingsOn (set : ModuleSet) (code : Code) (ids : List PairId) : List Finding :=
  set.resolve.2.filter fun f => f.diagnostic.code = code ∧ f.subject ∈ ids

namespace Config

variable {set : ModuleSet} {m m' : Config} {x : PairId}

theorem leads_end (hm : Leads (start set) m) : Leads m ⟨[], Progress.run set⟩ := by
  have hunique : Relator.RightUnique Step := fun _ _ _ => Step.deterministic
  rcases Relation.ReflTransGen.total_of_right_unique hunique hm (start_leads_run set) with h | h
  · exact h
  · rcases h.cases_head with rfl | ⟨_, hstep, -⟩
    · exact .refl
    · cases hstep

theorem leads_announced_subset (hset : set.Parsed) (hm : Leads (start set) m) (h : Leads m m')
    (hx : x ∈ m.progress.announced) : x ∈ m'.progress.announced := by
  induction h with
  | refl => exact hx
  | tail hlead hstep ih => exact hstep.announced_subset hset (hm.trans hlead) ih

end Config

namespace ModuleSet.Parsed

open PairTree Progress Config

variable {set : ModuleSet} {x : PairId} (hset : set.Parsed) {code : Code}

include hset

/-- A scope with a name is announced itself if and only if a definition in it is entered before it is split. -/
theorem mem_announced_run_iff (hnamed : set.tree.NamedScope x) (hdeclares : set.tree.declares x) :
    x ∈ (run set).announced ↔ set.EntersEarly x := by
  have hrun := start_leads_run set
  refine ⟨entersEarly_of_announced hset hrun hnamed, ?_⟩
  rintro ⟨m, hm, hunhandled, d, hd, hancestor⟩
  have hplain : x ∉ m.progress.entered := by
    intro hentered
    have hdef := leads_entered_definition hset hm hentered
    exact Bool.false_ne_true ((Kind.not_scope_of_definition hdef).symm.trans hnamed.1)
  have hdef := leads_entered_definition hset hm hd
  have habove : x ∈ m.progress.tree.ancestors d :=
    (leads_ancestors_iff hset hm hnamed.lt_size (lt_size_of_definition hdef)).mpr hancestor
  refine leads_announced_subset hset hm (leads_end hm) ?_
  refine ((leads_expects hset hm).2 d hd x habove hnamed hdeclares).resolve_left ?_
  exact fun hmet => hmet.elim hunhandled hplain

theorem met_run (hrooted : (run set).tree.Rooted set.modules x) : (run set).Met x := by
  cases hdef : ((run set).tree.kind x).isAliasDefinition with
  | true => exact .inr (hset.mem_entered_run_iff.mpr ⟨hrooted, hdef⟩)
  | false => exact .inl (hset.mem_handled_run_iff.mpr ⟨hrooted, hdef⟩)

/-- In the end what a pair brings in has been announced: for a scope with a name, this is so of its element. -/
theorem mem_announced_run (hrooted : set.tree.Rooted set.modules x) (hdeclares : set.tree.declares x)
    {scopes : List PairId} (hscopes : set.tree.SplitsInto scopes (run set).tree) :
    (if x ∈ scopes then set.tree.elementOf scopes x else x) ∈ (run set).announced := by
  have hrun := start_leads_run set
  have hwf₀ := hset.tree_parsed.wellFormed
  have hlt := lt_size_of_declares hdeclares
  have hledger := leads_ledger hset hrun
  have hrooted' : (run set).tree.Rooted set.modules x :=
    ((leads_unfolds hset hrun).rooted_iff hset.tree_parsed.toOwned hset.run_tracked.covered.toOwned hlt).mpr hrooted
  split
  · rename_i hs
    have hheld : set.tree.elementOf scopes x ∈ ((run set).tree.get x).held := by
      apply mem_held_of_mem_children
      rw [hscopes.children_scope hs]
      exact mem_singleton_self _
    refine hledger.heard _ (hset.met_run (hrooted'.held hheld)) (declares_iff.mpr (.inr ?_))
    rw [hscopes.namespaceDefinitions_element hwf₀ hs]
    refine (declares_iff.mp hdeclares).resolve_left fun howner => ?_
    have hscope := (hscopes.named x hs).1
    cases hkind : set.tree.kind x <;> simp [hkind, Kind.isScope, Kind.isScopeOwner] at hscope howner
  · rename_i hs
    exact hledger.heard x (hset.met_run hrooted') ((hscopes.declares_eq hwf₀ hlt hs).trans hdeclares)

/-- How many of the pairs that were announced stem from a pair. -/
theorem countP_announced_run (hrooted : set.tree.Rooted set.modules x) (hdeclares : set.tree.declares x) :
    let stems := fun y => (run set).tree.origin? set.tree.size y = some x
    (¬ (set.tree.NamedScope x ∧ set.EntersEarly x) → (run set).announced.countP (stems ·) = 1) ∧
      (set.tree.NamedScope x ∧ set.EntersEarly x → (run set).announced.countP (stems ·) = 2) := by
  intro stems
  have hrun := start_leads_run set
  have hlt := lt_size_of_declares hdeclares
  have hledger := leads_ledger hset hrun
  obtain ⟨scopes, hscopes⟩ := leads_splitsInto hset hrun
  have hs : x ∈ scopes ↔ set.tree.NamedScope x := (hset.mem_scopes_iff hscopes).trans (and_iff_right hrooted)
  have hheir := hset.mem_announced_run hrooted hdeclares hscopes
  have hstems : ∀ y, y ∈ (run set).announced.filter (stems ·) ↔
      y ∈ (run set).announced ∧ (y = x ∨ x ∈ scopes ∧ y = set.tree.elementOf scopes x) := by
    intro y
    rw [mem_filter, decide_eq_true_eq]
    refine and_congr_right fun hy => hscopes.origin?_eq_some_iff ?_ hlt (hledger.lt y hy)
    exact hset.run_tracked.covered.wellFormed
  have hcount : ∀ {l : List PairId}, l.Nodup → (∀ y, y ∈ (run set).announced.filter (stems ·) ↔ y ∈ l) →
      (run set).announced.countP (stems ·) = l.length := by
    intro l hl hsame
    rw [countP_eq_length_filter]
    exact ((perm_ext_iff_of_nodup (hledger.nodup.filter _) hl).mpr hsame).length_eq
  constructor
  · intro hlate
    refine hcount (nodup_singleton (if x ∈ scopes then set.tree.elementOf scopes x else x)) fun y => ?_
    rw [hstems, mem_singleton]
    constructor
    · rintro ⟨hy, rfl | ⟨hmem, rfl⟩⟩
      · refine (if_neg fun hmem => hlate ?_).symm
        have hnamed := hs.mp hmem
        exact ⟨hnamed, (hset.mem_announced_run_iff hnamed hdeclares).mp hy⟩
      · exact (if_pos hmem).symm
    · rintro rfl
      refine ⟨hheir, ?_⟩
      split
      · rename_i hmem
        exact .inr ⟨hmem, rfl⟩
      · exact .inl rfl
  · rintro ⟨hnamed, hearly⟩
    have hmem := hs.mpr hnamed
    rw [if_pos hmem] at hheir
    have hfirst := (hset.mem_announced_run_iff hnamed hdeclares).mpr hearly
    have hne : x ≠ set.tree.elementOf scopes x := (hlt.trans_le (Nat.le_add_right _ _)).ne
    refine hcount (l := [x, set.tree.elementOf scopes x]) (by simpa using hne) fun y => ?_
    rw [hstems, mem_pair, and_iff_right hmem, and_iff_right_iff_imp]
    rintro (rfl | rfl)
    · exact hfirst
    · exact hheir

/-- The definitions of a name but the first are reported as often as something that stems from the pair that they
    are in was announced. -/
theorem findingsOn_eq (hcode : code.IsAboutDuplicates) (x : PairId) (name : String) :
    set.findingsOn code (set.tree.namesakes code x name) = (List.replicate ((run set).announced.countP fun y =>
          (run set).tree.origin? set.tree.size y = some x)
        ((set.tree.namesakes code x name).tail.map (set.tree.noticeOf code))).flatten := by
  have hledger := leads_ledger hset (start_leads_run set)
  rw [← (reverse_perm _).countP_eq, ← flatMap_ite_nil]
  have hnotices : set.findingsOn code (set.tree.namesakes code x name) = (run set).notices.filter
      fun f => f.diagnostic.code = code ∧ f.subject ∈ set.tree.namesakes code x name := by
    rw [notices, filter_filter, ModuleSet.findingsOn, ModuleSet.resolve]
    refine filter_congr fun f _ => ?_
    by_cases hf : f.diagnostic.code = code
    · simp [hf, hcode]
    · simp [hf]
  rw [hnotices, hledger.notices, filter_flatMap]
  refine flatMap_congr fun y _ => ?_
  change List.filter _ (((run set).tree.origin? set.tree.size y).elim _ _) = _
  cases (run set).tree.origin? set.tree.size y with
  | none => rfl
  | some z =>
    simp only [Option.elim_some, Option.some.injEq]
    exact hset.tree_parsed.wellFormed.filter_noticesAt hcode x z name

theorem findingsOn_namesakes (hcode : code.IsAboutDuplicates) (hrooted : set.tree.Rooted set.modules x)
    (name : String) : let notices := (set.tree.namesakes code x name).tail.map (set.tree.noticeOf code)
    (¬ (set.tree.NamedScope x ∧ set.EntersEarly x) → set.findingsOn code (set.tree.namesakes code x name) = notices) ∧
      (set.tree.NamedScope x ∧ set.EntersEarly x →
        set.findingsOn code (set.tree.namesakes code x name) = notices ++ notices) := by
  intro notices
  rw [hset.findingsOn_eq hcode]
  cases hdeclares : set.tree.declares x with
  | false =>
    have hnone : notices = [] := by
      simp only [notices, namesakes, declarations_eq_nil hdeclares, filter_nil, tail_nil, map_nil]
    change (_ → (List.replicate _ notices).flatten = notices) ∧
      (_ → (List.replicate _ notices).flatten = notices ++ notices)
    rw [hnone]
    simp
  | true =>
    obtain ⟨honce, htwice⟩ := hset.countP_announced_run hrooted hdeclares
    refine ⟨fun hlate => ?_, fun hearly => ?_⟩
    · rw [honce hlate]
      simp [notices]
    · rw [htwice hearly]
      simp [notices]

/-- What is reported as a duplicate is a definition in a pair that hangs from a module. -/
theorem rooted_of_notice {f : Finding} (hf : f ∈ set.resolve.2) (hcode : f.diagnostic.code.IsAboutDuplicates) :
    ∃ x, set.tree.Rooted set.modules x ∧ f.subject ∈ set.tree.declarations f.diagnostic.code x := by
  have hrun := start_leads_run set
  have hledger := leads_ledger hset hrun
  have howned := hset.run_tracked.covered.toOwned
  have hmem : f ∈ (run set).notices := mem_filter.mpr ⟨hf, decide_eq_true hcode⟩
  rw [hledger.notices, mem_flatMap] at hmem
  obtain ⟨a, ha, hmem⟩ := hmem
  change f ∈ ((run set).tree.origin? set.tree.size a).elim [] set.tree.noticesAt at hmem
  cases horigin : (run set).tree.origin? set.tree.size a with
  | none =>
    rw [horigin] at hmem
    cases hmem
  | some x =>
    rw [horigin] at hmem
    have hrooted : (run set).tree.Rooted set.modules a := by
      rcases hledger.source a (mem_reverse.mp ha) with hmodule | hmet | ⟨e, he, habove⟩
      · exact ⟨a, hmodule, .refl⟩
      · exact hmet.elim (hset.run_rooted.handled a) (hset.run_rooted.entered a)
      · exact howned.rooted_ancestor (hset.run_rooted.entered e he) habove
    have hx : (run set).tree.Rooted set.modules x := by
      rcases mem_cons.mp (mem_of_find?_eq_some horigin) with rfl | habove
      · exact hrooted
      · exact howned.rooted_ancestor hrooted habove
    have hlt : x < set.tree.size := by simpa using find?_some horigin
    refine ⟨x, ((leads_unfolds hset hrun).rooted_iff hset.tree_parsed.toOwned howned hlt).mp hx, ?_⟩
    rcases mem_append.mp hmem with hmem | hmem
    all_goals
      obtain ⟨d, hd, rfl⟩ := mem_map.mp hmem
      exact mem_of_mem_repeated hd

end ModuleSet.Parsed

namespace Session

/-- Of the aliases of one name that a pair makes known, all but the first in pre-order are reported, each once. So
    are the definitions of one prefix that are directly in a pair, but for those in a scope with a local name: they
    are reported twice if a definition in the scope was entered before the scope was handled. Nothing else is
    reported as a duplicate. -/
theorem duplicates_reported {limit : Option Nat} {sources : List Source} {parsed resolved : Session}
    (hparse : (start limit).parseAll sources = .ok parsed) (hresolve : parsed.resolve = .ok resolved) :
    let set := parsed.set
    resolved.collection.entries = parsed.collection.entries ++ set.resolve.2.map (·.diagnostic) ∧
      (∀ f ∈ set.resolve.2, f.diagnostic.code.IsAboutDuplicates →
        ∃ x, set.tree.Rooted set.modules x ∧ f.subject ∈ set.tree.declarations f.diagnostic.code x) ∧
      ∀ x, set.tree.Rooted set.modules x → ∀ name,
        let aliases := set.tree.namesakes .duplicateAliasDefName x name
        let namespaces := set.tree.namesakes .duplicateNamespaceDefinition x name
        let notices := namespaces.tail.map (set.tree.noticeOf .duplicateNamespaceDefinition)
        (∀ d, d ∈ aliases ↔ set.tree.Hoists x d ∧ (set.tree.get d).nameText = name) ∧
          aliases.Sublist (set.tree.preorder x) ∧
          set.findingsOn .duplicateAliasDefName aliases =
            aliases.tail.map (set.tree.noticeOf .duplicateAliasDefName) ∧
          (¬ (set.tree.NamedScope x ∧ set.EntersEarly x) →
            set.findingsOn .duplicateNamespaceDefinition namespaces = notices) ∧
          (set.tree.NamedScope x ∧ set.EntersEarly x →
            set.findingsOn .duplicateNamespaceDefinition namespaces = notices ++ notices) := by
  intro set
  have hset := parsed_of_start hparse
  have hwf := hset.tree_parsed.wellFormed
  refine ⟨(resolve_spec hresolve).2, fun f => hset.rooted_of_notice, fun x hrooted name => ?_⟩
  intro aliases namespaces notices
  have hlt := hset.tree_parsed.toOwned.rooted_lt_size hrooted
  have hmem : ∀ d, d ∈ aliases ↔ set.tree.Hoists x d ∧ (set.tree.get d).nameText = name := by
    intro d
    rw [← hwf.mem_hoisted_iff]
    exact List.mem_filter.trans (and_congr_right fun _ => decide_eq_true_iff)
  refine ⟨hmem, List.filter_sublist.trans (hwf.hoisted_sublist hlt), ?_,
    hset.findingsOn_namesakes (.inl rfl) hrooted name⟩
  obtain ⟨honce, htwice⟩ := hset.findingsOn_namesakes (.inr rfl) hrooted name
  by_cases hnamed : set.tree.NamedScope x
  · have hnone : aliases = [] := by
      have hscope := hnamed.1
      have hhoisted : set.tree.hoisted x = [] := by
        rw [PairTree.hoisted]
        cases hkind : set.tree.kind x <;> simp [hkind, Kind.isScope, Kind.isScopeOwner] at hscope ⊢
      simp only [aliases, PairTree.namesakes, PairTree.declarations, hhoisted, List.filter_nil]
    simp [hnone, ModuleSet.findingsOn]
  · exact honce fun h => hnamed h.1

/-- An alias is defined in a document and again in an element below it, and a prefix twice in the module. -/
def doubledSource : Source where
  name := "a.pxml"
  format := .xml
  text := "!#p = u\n!#p = v\n!d:\n    !$x = 1\n    r:\n        !$x = 2\n        y = $x\n".toList

theorem doubledSource_reported : ∃ parsed resolved,
    (start none).parseAll [doubledSource] = .ok parsed ∧ parsed.resolve = .ok resolved ∧ (let set := parsed.set
      set.tree.namesakes .duplicateAliasDefName 3 "x" = [4, 6] ∧
        set.findingsOn .duplicateAliasDefName [4, 6] = [set.tree.noticeOf .duplicateAliasDefName 6] ∧
        set.tree.namesakes .duplicateNamespaceDefinition 0 "p" = [1, 2] ∧
        set.findingsOn .duplicateNamespaceDefinition [1, 2] = [set.tree.noticeOf .duplicateNamespaceDefinition 2]) ∧
      resolved.collection.entries.length = 2 := by
  obtain ⟨parsed, resolved, hparse, hresolve, hfacts, hlength⟩ := exists_confirmed
    (show confirms none [doubledSource] (fun parsed resolved =>
      ((0 ∈ parsed.set.modules ∧ 0 ∈ parsed.set.tree.ancestors 3 ∧ ¬ parsed.set.tree.NamedScope 0) ∧
        parsed.set.tree.namesakes .duplicateAliasDefName 3 "x" = [4, 6] ∧
        parsed.set.tree.namesakes .duplicateNamespaceDefinition 0 "p" = [1, 2]) ∧
      resolved.collection.entries.length = 2) = true by decide +kernel)
  obtain ⟨⟨hmodule, hancestor, hplain⟩, haliases, hnamespaces⟩ := hfacts
  have hwf := (parsed_of_start hparse).tree_parsed.wellFormed
  obtain ⟨-, -, hreported⟩ := duplicates_reported hparse hresolve
  obtain ⟨-, -, hdocument, -⟩ := hreported 3 ⟨0, hmodule, hwf.hangsFrom_iff.mpr (.inr hancestor)⟩ "x"
  obtain ⟨-, -, -, hroot, -⟩ := hreported 0 ⟨0, hmodule, .refl⟩ "p"
  have honce := hroot fun h => hplain h.1
  rw [haliases] at hdocument
  rw [hnamespaces] at honce
  exact ⟨parsed, resolved, hparse, hresolve, ⟨haliases, hdocument, hnamespaces, honce⟩, hlength⟩

/-- A usage in front of a scope with a local name leads to a definition in the scope. -/
def hastySource : Source where
  name := "a.pxml"
  format := .xml
  text := ("!#p = u\n!d:\n    r:\n        $x\n        #p.foo:\n            !#q = b\n            !#q = c\n" ++
    "            !$x:\n                bar = 1\n").toList

/-- One definition is one too many, and it is reported twice. -/
theorem hastySource_reported_twice : ∃ parsed resolved,
    (start none).parseAll [hastySource] = .ok parsed ∧ parsed.resolve = .ok resolved ∧ (let set := parsed.set
      let notice := set.tree.noticeOf .duplicateNamespaceDefinition 7
      set.tree.Rooted set.modules 5 ∧ set.tree.NamedScope 5 ∧ set.EntersEarly 5 ∧
        set.tree.namesakes .duplicateNamespaceDefinition 5 "q" = [6, 7] ∧
        set.findingsOn .duplicateNamespaceDefinition [6, 7] = [notice, notice] ∧
        resolved.collection.entries = [notice.diagnostic, notice.diagnostic]) := by
  obtain ⟨parsed, resolved, hparse, hresolve, ⟨hmodule, hancestor, hnamed⟩, hnamespaces, htwice, hentries⟩ :=
    exists_confirmed (show confirms none [hastySource] (fun parsed resolved =>
      let notice := parsed.set.tree.noticeOf .duplicateNamespaceDefinition 7
      (0 ∈ parsed.set.modules ∧ 0 ∈ parsed.set.tree.ancestors 5 ∧ parsed.set.tree.NamedScope 5) ∧
        parsed.set.tree.namesakes .duplicateNamespaceDefinition 5 "q" = [6, 7] ∧
        parsed.set.findingsOn .duplicateNamespaceDefinition [6, 7] = [notice, notice] ∧
        resolved.collection.entries = [notice.diagnostic, notice.diagnostic]) = true by decide +kernel)
  have hset := parsed_of_start hparse
  have hrooted : parsed.set.tree.Rooted parsed.set.modules 5 :=
    ⟨0, hmodule, hset.tree_parsed.wellFormed.hangsFrom_iff.mpr (.inr hancestor)⟩
  refine ⟨parsed, resolved, hparse, hresolve, hrooted, hnamed, ?_, hnamespaces, htwice, hentries⟩
  by_contra hlate
  have honce := (hset.findingsOn_namesakes (.inl rfl) hrooted "q").1 fun h => hlate h.2
  rw [hnamespaces, htwice] at honce
  cases honce

end Session

end PairMarkup
