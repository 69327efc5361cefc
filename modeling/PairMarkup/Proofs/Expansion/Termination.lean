import PairMarkup.Proofs.Expansion.Calls
import PairMarkup.Proofs.Resolution.Keeping
import PairMarkup.Proofs.Session

namespace PairMarkup

open List Kind Option Config Progress

/-- How often a definition may yet be entered or left from here on. -/
def Occurrence.budget (limit : Nat) (o : Occurrence) : Nat := 2 * (limit - o.depth) + o.within.depth

namespace PairTree

open Occurrence

variable {o : Occurrence} {within : Surroundings} {names : List String} {id d : PairId}

/-- In the definition `d`, the default for the parameter `p` refers to the parameter `q`,
    as its value or in a part of it. -/
def DefaultRefers (t : PairTree) (d : PairId) (p q : String) : Prop :=
  ∃ within default r, within.definition? = some d ∧ t.defaultFor? within p = some default ∧
    (r ∈ (t.get default).items.getD [] ∨ (t.get default).valueKind = .pairValue ∧ t.reference? default = some r) ∧
    (t.kind r).isParameter = true ∧ (t.get r).name = some q

/-- Texts between the references in a default are nothing but texts. -/
def DefaultsArePlain (t : PairTree) : Prop := ∀ within name default, t.defaultFor? within name = some default →
    ∀ item ∈ (t.get default).items.getD [], (t.kind item).isElement = true →
      (t.get item).items = none ∧ (t.get item).valueKind ≠ .pairValue

/-- Only alias definitions were entered. -/
def Proper (t : PairTree) : Surroundings → Prop
  | .document => True
  | .call d _ caller => (t.kind d).isAliasDefinition = true ∧ t.Proper caller

/-- The order in which calls go down: first the budget, then the number of defaults that
    were followed on the way, then the place in the tree. -/
def potential (size budget followed depth : Nat) : Nat :=
  budget * ((size + 1) * (size + 1)) + (size - followed) * (size + 1) + (size - depth)

section Potential

variable {size budget budget' followed followed' depth depth' : Nat}

theorem potential_lt_of_budget (h : budget' < budget) :
    potential size budget' followed' depth' < potential size budget followed depth := by
  have hbudget : (budget' + 1) * ((size + 1) * (size + 1)) ≤ budget * ((size + 1) * (size + 1)) :=
    Nat.mul_le_mul_right _ h
  have hfollowed : (size - followed') * (size + 1) ≤ size * (size + 1) := Nat.mul_le_mul_right _ (Nat.sub_le _ _)
  have hsquare : (size + 1) * (size + 1) = size * (size + 1) + (size + 1) := Nat.succ_mul _ _
  rw [Nat.succ_mul] at hbudget
  simp only [potential]
  omega

theorem potential_lt_of_followed (h : followed < followed') (hle : followed' ≤ size) :
    potential size budget followed' depth' < potential size budget followed depth := by
  have hfollowed : (size - followed' + 1) * (size + 1) ≤ (size - followed) * (size + 1) :=
    Nat.mul_le_mul_right _ (by omega)
  rw [Nat.succ_mul] at hfollowed
  simp only [potential]
  omega

theorem potential_lt_of_depth (h : depth < depth') (hle : depth' ≤ size) :
    potential size budget followed depth' < potential size budget followed depth := by
  simp only [potential]
  omega

end Potential

variable {t : PairTree} {limit : Nat} {caller : Surroundings} {u : PairId}

/-- The bound on steps is enough for what the budget allows at the beginning. -/
theorem potential_lt_stepBound {budget followed depth : Nat} (h : budget ≤ 2 * limit) :
    potential t.size budget followed depth < t.stepBound limit := by
  have hlt : potential t.size budget followed depth <
      potential t.size (2 * limit + 1) t.size t.size := potential_lt_of_budget (by omega)
  have htop : (2 * limit + 1) * ((t.size + 1) * (t.size + 1)) ≤
      (3 * limit + 1) * ((t.size + 1) * (t.size + 1)) := Nat.mul_le_mul_right _ (by omega)
  simp only [potential, stepBound, Nat.sub_self, Nat.zero_mul] at hlt htop ⊢
  omega

theorem defaultFor?_spec {name : String} (h : t.defaultFor? within name = some id) :
    ∃ d, within.definition? = some d ∧ id ∈ t.preorder d ∧ (t.kind id).isParameter ∧ (t.get id).name = some name ∧
      ((t.get id).delimiter.isValue ∨ (t.get id).valueKind = .pairValue) := by
  unfold defaultFor? at h
  split at h
  · cases h
  · rename_i d hd
    have hfound := find?_some h
    simp only [Bool.and_eq_true, Bool.or_eq_true, decide_eq_true_eq] at hfound
    exact ⟨d, hd, mem_of_find?_eq_some h, hfound.1.1, hfound.1.2, hfound.2⟩

theorem budget_enter (h : t.enter? limit o d = some within) (x : PairId) :
    (Occurrence.mk x within (o.depth + 1)).budget limit < o.budget limit := by
  obtain ⟨-, hdepth, rfl⟩ := enter?_eq_some h
  simp only [budget, Surroundings.depth]
  omega

theorem budget_leave (h : o.within = .call d u caller) (x : PairId) :
    (Occurrence.mk x caller o.depth).budget limit < o.budget limit := by
  simp only [budget, h, Surroundings.depth]
  omega

theorem proper_enter (hproper : t.Proper o.within) (h : t.enter? limit o d = some within) : t.Proper within := by
  obtain ⟨hdef, -, rfl⟩ := enter?_eq_some h
  exact ⟨hdef, hproper⟩

theorem proper_leave (hproper : t.Proper within) (h : within = .call d u caller) : t.Proper caller := by
  subst h
  exact hproper.2

/-- The defaults that were followed in the same surroundings on the way to an occurrence,
    latest first. Each leads on to the latest, which is where the way has come to. -/
structure Followed (t : PairTree) (o : Occurrence) (names : List String) : Prop where
  nodup : names.Nodup
  found : ∀ name ∈ names, (t.defaultFor? o.within name).isSome
  latest : ∀ p, names.head? = some p → t.defaultFor? o.within p = some o.pair ∧
    ∀ d, o.within.definition? = some d → ∀ name ∈ names, Relation.ReflTransGen (t.DefaultRefers d) name p

theorem Followed.nil (o : Occurrence) : t.Followed o [] := ⟨.nil, fun _ h => absurd h not_mem_nil, nofun⟩

theorem Followed.length_le (h : t.Followed o names) : names.length ≤ t.size := by
  have hdefault : ∀ name ∈ names, ∃ id, t.defaultFor? o.within name = some id := fun name hname =>
    isSome_iff_exists.mp (h.found name hname)
  rw [← length_map fun name => (t.defaultFor? o.within name).getD 0]
  refine length_le_of_nodup_of_lt (h.nodup.map_on fun a ha b hb hab => ?_) fun x hx => ?_
  · obtain ⟨x, hx⟩ := hdefault a ha
    obtain ⟨y, hy⟩ := hdefault b hb
    obtain ⟨-, -, -, -, hxname, -⟩ := defaultFor?_spec hx
    obtain ⟨-, -, -, -, hyname, -⟩ := defaultFor?_spec hy
    simp only [hx, hy, getD_some] at hab
    rw [hab, hyname] at hxname
    exact (some.inj hxname).symm
  · obtain ⟨name, hname, rfl⟩ := mem_map.mp hx
    obtain ⟨x, hx⟩ := hdefault name hname
    obtain ⟨-, -, -, hparameter, -, -⟩ := defaultFor?_spec hx
    rw [hx, getD_some]
    exact lt_size_of_parameter hparameter

/-- In no definition do defaults refer to each other in a circle. -/
def DefaultsAreAcyclic (t : PairTree) : Prop :=
  ∀ d, (t.kind d).isAliasDefinition = true → ∀ p, ¬ Relation.TransGen (t.DefaultRefers d) p p

/-- From a default that was followed to one that it refers to. -/
theorem Followed.cons (h : t.Followed o names) (hproper : t.Proper o.within) (hacyclic : t.DefaultsAreAcyclic)
    {q : String} (hdefault : t.defaultFor? o.within q = some id)
    (hrefers : ∀ p, names.head? = some p → ∀ d, o.within.definition? = some d → t.DefaultRefers d p q) :
    t.Followed { o with pair := id } (q :: names) := by
  obtain ⟨d, hd, -⟩ := defaultFor?_spec hdefault
  have hdef : (t.kind d).isAliasDefinition := by
    cases hwithin : o.within with
    | document =>
      rw [hwithin] at hd
      cases hd
    | call d' u caller =>
      rw [hwithin] at hd hproper
      cases hd
      exact hproper.1
  -- Every name that came before leads on to `q` by way of the latest.
  have hleads : ∀ name ∈ names, Relation.TransGen (t.DefaultRefers d) name q := by
    intro name hname
    cases names with
    | nil => cases hname
    | cons p names => exact .tail' ((h.latest p rfl).2 d hd name hname) (hrefers p rfl d hd)
  refine ⟨nodup_cons.mpr ⟨fun hmem => hacyclic d hdef q (hleads q hmem), h.nodup⟩, ?_, ?_⟩
  · intro name hname
    rcases mem_cons.mp hname with rfl | hname
    · exact isSome_iff_exists.mpr ⟨id, hdefault⟩
    · exact h.found name hname
  · rintro p ⟨⟩
    refine ⟨hdefault, fun d' hd' name hname => ?_⟩
    obtain rfl : d = d' := some.inj (hd.symm.trans hd')
    rcases mem_cons.mp hname with rfl | hname
    · exact .refl
    · exact (hleads name hname).to_reflTransGen

theorem length_ancestors_lt_of_held (hwf : t.WellFormed) {c p : PairId} (h : c ∈ (t.get p).held) :
    (t.ancestors p).length < (t.ancestors c).length ∧ (t.ancestors c).length ≤ t.size := by
  have hlength := hwf.length_ancestors_of_held h
  have hlt := hwf.length_ancestors_lt (hwf.held_lt_size h)
  omega

section

variable (hwf : t.WellFormed) (hplain : t.DefaultsArePlain) (hacyclic : t.DefaultsAreAcyclic) {n : Nat}

include hwf hplain hacyclic

/-- Every value is found in fewer steps than there is left to do. -/
theorem isSome_valueTo (hproper : t.Proper o.within) (hfollowed : t.Followed o names)
    (hn : potential t.size (o.budget limit) names.length (t.ancestors o.pair).length < n) :
    (t.valueTo limit n o).isSome := by
  induction n generalizing o names with
  | zero => omega
  | succ n ih =>
    -- A reference among what the pair holds leads to a definition, a caller or a default.
    have hsource : ∀ r q, (r ∈ (t.get o.pair).items.getD [] ∨
        (t.get o.pair).valueKind = .pairValue ∧ t.reference? o.pair = some r) →
        t.Source limit { o with pair := r } q → (t.valueTo limit n q).isSome := by
      intro r q hr hq
      cases hq with
      | definition hkind hwithin =>
        refine ih (proper_enter (o := { o with pair := r }) hproper hwithin) (.nil _)
          (lt_of_lt_of_le ?_ (Nat.le_of_lt_succ hn))
        exact potential_lt_of_budget (budget_enter hwithin _)
      | usage hparameter hwithin =>
        refine ih (proper_leave hproper hwithin) (.nil _) (lt_of_lt_of_le ?_ (Nat.le_of_lt_succ hn))
        exact potential_lt_of_budget (budget_leave hwithin _)
      | argument hparameter hwithin hargument =>
        refine ih (proper_leave hproper hwithin) (.nil _) (lt_of_lt_of_le ?_ (Nat.le_of_lt_succ hn))
        exact potential_lt_of_budget (budget_leave hwithin _)
      | default hparameter hname hargument hdefault =>
        have hnext := hfollowed.cons hproper hacyclic hdefault fun p hp d hd =>
          ⟨o.within, o.pair, r, hd, (hfollowed.latest p hp).1, hr, hparameter, hname⟩
        refine ih hproper hnext (lt_of_lt_of_le ?_ (Nat.le_of_lt_succ hn))
        exact potential_lt_of_followed (Nat.lt_succ_self _) hnext.length_le
    refine isSome_valueTo_succ fun q hq => ?_
    rcases hq with hq | ⟨r, hr, hq⟩
    · cases hq with
      | @part _ items item hitems hitem helement =>
        have hheld : item ∈ (t.get o.pair).held := mem_append_right _ (by rwa [hitems])
        obtain ⟨hdeeper, hle⟩ := length_ancestors_lt_of_held hwf hheld
        have hless : potential t.size (o.budget limit) names.length (t.ancestors item).length <
            potential t.size (o.budget limit) names.length (t.ancestors o.pair).length :=
          potential_lt_of_depth hdeeper hle
        cases names with
        | nil => exact ih hproper (.nil _) (by exact hless.trans_le (Nat.le_of_lt_succ hn))
        | cons p names =>
          -- The parts of a default are texts, whose values are there at once.
          obtain ⟨hnone, hkind⟩ := hplain o.within p o.pair (hfollowed.latest p rfl).1 item (by rwa [hitems]) helement
          obtain ⟨n, rfl⟩ : ∃ k, n = k + 1 := ⟨n - 1, by omega⟩
          rw [valueTo_of_plain hnone hkind]
          rfl
    · cases hq with
      | source hq =>
        cases hr with
        | item hitems hitem helement =>
          exact hsource _ q (.inl (by rwa [hitems])) (source_of_valueSource? hq)
        | reference hitems hkind hreference =>
          exact hsource _ q (.inr ⟨hkind, hreference⟩) (source_of_valueSource? hq)

/-- Every pair is expanded in fewer steps than there is left to do. Where a value is asked
    for, no default was followed yet. -/
theorem isSome_expandTo (hproper : t.Proper o.within) (hbudget : o.budget limit ≤ 2 * limit)
    (hn : potential t.size (o.budget limit) 0 (t.ancestors o.pair).length < n) :
    (t.expandTo limit (t.stepBound limit) n o).isSome := by
  induction n generalizing o with
  | zero => omega
  | succ n ih =>
    have hdown : ∀ c ∈ t.children o.pair, (t.expandTo limit (t.stepBound limit) n { o with pair := c }).isSome := by
      intro c hc
      obtain ⟨hdeeper, hle⟩ := length_ancestors_lt_of_held hwf (mem_append_left _ hc)
      refine ih hproper hbudget (lt_of_lt_of_le ?_ (Nat.le_of_lt_succ hn))
      exact potential_lt_of_depth hdeeper hle
    have haway : ∀ q : Occurrence, t.Proper q.within → q.budget limit < o.budget limit →
        (t.expandTo limit (t.stepBound limit) n q).isSome := by
      intro q hq hless
      refine ih hq (by omega) (lt_of_lt_of_le ?_ (Nat.le_of_lt_succ hn))
      exact potential_lt_of_budget hless
    refine isSome_expandTo_succ (fun _ => ?_) fun q hq => ?_
    · exact isSome_valueTo hwf hplain hacyclic hproper (.nil o) (potential_lt_stepBound hbudget)
    · cases hq with
      | replace _ hq =>
        cases replaced_of_mem hq with
        | child _ hc => exact hdown _ hc
        | body _ hwithin _ => exact haway _ (proper_enter hproper hwithin) (budget_enter hwithin _)
        | argument _ hwithin _ _ => exact haway _ (proper_leave hproper hwithin) (budget_leave hwithin _)
        | given _ hwithin _ => exact haway _ (proper_leave hproper hwithin) (budget_leave hwithin _)
      | inside _ _ hq =>
        obtain ⟨c, hc, rfl⟩ := mem_inside hq
        exact hdown c hc

/-- A document is expanded, and more steps would not change the result. -/
theorem exists_expandDocument? (hdocument : (t.kind id).isDocument) : ∃ e, t.expandDocument? limit id = some e ∧
      ∀ valueSteps steps, t.stepBound limit ≤ valueSteps → t.stepBound limit ≤ steps →
        t.expandTo limit valueSteps steps ⟨id, .document, 0⟩ = some [e] := by
  have hbudget : (Occurrence.mk id .document 0).budget limit ≤ 2 * limit := by
    simp only [budget, Surroundings.depth]
    omega
  obtain ⟨result, hresult⟩ := isSome_iff_exists.mp (isSome_expandTo hwf hplain hacyclic
    (o := ⟨id, .document, 0⟩) trivial hbudget (potential_lt_stepBound hbudget))
  have hkind : expandedKind? (t.kind id) = some .document := by
    cases h : t.kind id <;> simp [h, isDocument, expandedKind?] at hdocument ⊢
  obtain ⟨e, rfl⟩ := expandTo_eq_singleton (o := ⟨id, .document, 0⟩) hkind hresult
  refine ⟨e, ?_, fun valueSteps steps hvalueSteps hsteps => expandTo_mono hvalueSteps hsteps hresult⟩
  rw [expandDocument?, if_pos hdocument, hresult]
  rfl

end

/-- Defaults that refer only to what comes before them in some order have no circle. -/
theorem DefaultsAreAcyclic.of_rank (rank : String → Nat) (h : ∀ x < t.size, (t.kind x).isParameter →
      ∀ r ∈ (t.get x).items.getD [] ++ (t.reference? x).toList,
        rank (t.get r).nameText < rank (t.get x).nameText) : t.DefaultsAreAcyclic := by
  have hstep : ∀ d p q, t.DefaultRefers d p q → rank q < rank p := by
    rintro d p q ⟨within, default, r, -, hdefault, hr, -, hq⟩
    obtain ⟨-, -, -, hparameter, hp, -⟩ := defaultFor?_spec hdefault
    have hlt := h default (lt_size_of_parameter hparameter) hparameter r ?_
    · rwa [Pair.nameText, hq, Pair.nameText, hp] at hlt
    · rcases hr with hr | ⟨-, hr⟩
      · exact mem_append_left _ hr
      · exact mem_append_right _ (by simp [hr])
  intro d _ p hp
  have hlt := hp.lift (p := (· > ·)) rank (hstep d)
  rw [Relation.transGen_eq_self] at hlt
  exact lt_irrefl _ hlt

end PairTree

theorem ModuleSet.Parsed.run_defaultsArePlain {set : ModuleSet} (hset : set.Parsed) :
    (run set).tree.DefaultsArePlain := by
  have hlead := start_leads_run set
  have hflag : ∀ x, ((run set).tree.kind x).isParameter = (set.tree.kind x).isParameter :=
    leads_flag hset isParameter_shape rfl hlead
  have hsame : ∀ x < set.tree.size, ((run set).tree.get x).lasting = (set.tree.get x).lasting :=
    (leads_keeps hset Pair.lasting_stays hlead).same
  generalize (run set).tree = t at hflag hsame ⊢
  intro within name default hdefault item hitem helement
  obtain ⟨-, -, -, hparameter, -, hvalue⟩ := PairTree.defaultFor?_spec hdefault
  have hdefaultSame := hsame default (PairTree.lt_size_of_parameter ((hflag default).symm.trans hparameter))
  rw [Pair.items_eq_of_lasting hdefaultSame] at hitem
  have hpart : (set.tree.get item).IsPart := by
    rcases hvalue with hvalue | hvalue
    · rw [Pair.delimiter_eq_of_lasting hdefaultSame] at hvalue
      refine hset.verbatim.part default (fun hdelimiter => ?_) item hitem
      rw [hdelimiter] at hvalue
      cases hvalue
    · have hkind := (Pair.valueKind_eq_of_lasting hdefaultSame (not_usage_of_parameter hparameter)
        (not_scope_of_parameter hparameter) (by decide) (by decide)).mp hvalue
      rw [(hset.verbatim.pair default).items_eq_none hkind] at hitem
      cases hitem
  have hitemSame := hsame item (hset.tree_parsed.wellFormed.held_lt_size (mem_append_right _ hitem))
  have htext := hpart ((Pair.flag_eq_of_lasting hitemSame isElement_shape).symm.trans helement)
  have hkind := (Pair.valueKind_eq_of_lasting hitemSame (not_usage_of_element helement)
    (not_scope_of_element helement) (by decide) (by decide)).mpr htext.valueKind_eq
  refine ⟨(Pair.items_eq_of_lasting hitemSame).trans htext.items_eq, ?_⟩
  rw [hkind]
  decide

namespace Session

/-- Whatever the depth, every document is expanded, unless defaults refer to each other in
    a circle. More steps than were allowed for would not change the result. -/
theorem document_expansion_ends {limit : Option Nat} {sources : List Source} {parsed resolved : Session}
    (hparse : (start limit).parseAll sources = .ok parsed) (hresolve : parsed.resolve = .ok resolved)
    (hacyclic : resolved.set.tree.DefaultsAreAcyclic) (maxDepth : Nat) {id : PairId}
    (hdocument : (resolved.set.tree.kind id).isDocument = true) :
    let t := resolved.set.tree
    ∃ e, t.expandDocument? maxDepth id = some e ∧
      ∀ valueSteps steps, t.stepBound maxDepth ≤ valueSteps → t.stepBound maxDepth ≤ steps →
        t.expandTo maxDepth valueSteps steps ⟨id, .document, 0⟩ = some [e] := by
  have hparsed := parsed_of_start hparse
  have htree := run_tree_eq hresolve
  have hwf := resolved_wellFormed hparse hresolve
  exact PairTree.exists_expandDocument? hwf (htree ▸ hparsed.run_defaultsArePlain) hacyclic hdocument

/-- Two definitions that refer to each other without being marked for it. In the first,
    one default refers to the other. -/
def entangledSource : Source where
  name := "a.pjson"
  format := .json
  text := ("!$b:\n    e = %pp\n    %pp = %p\n    %p = 1\n    $i1\n    $i2\n" ++
    "!$i1:\n    !$x:\n        $i2\n!$i2:\n    $b\n!d:\n    $b\n").toList

theorem entangledSource_expansion_ends : ∃ parsed resolved,
    (start none).parseAll [entangledSource] = .ok parsed ∧ parsed.resolve = .ok resolved ∧
      ¬ resolved.set.tree.Marked 1 ∧ ¬ resolved.set.tree.Marked 12 ∧
      resolved.set.tree.DefaultsAreAcyclic ∧ (resolved.set.tree.kind 14).isDocument = true ∧
      ∃ e, resolved.set.tree.expandDocument? 3 14 = some e := by
  obtain ⟨parsed, resolved, hparse, hresolve, hcheck⟩ := exists_confirmed
    (show confirms none [entangledSource] (fun _ resolved =>
      (¬ resolved.set.tree.Marked 1 ∧ ¬ resolved.set.tree.Marked 12) ∧
      (resolved.set.tree.kind 14).isDocument = true ∧
      ∀ x ∈ List.range resolved.set.tree.size, (resolved.set.tree.kind x).isParameter = true →
        ∀ r ∈ (resolved.set.tree.get x).items.getD [] ++ (resolved.set.tree.reference? x).toList,
          (resolved.set.tree.get r).nameText.length < (resolved.set.tree.get x).nameText.length) = true by
      decide +kernel)
  obtain ⟨⟨hb, hi⟩, hdocument, hrank⟩ := hcheck
  have hacyclic := PairTree.DefaultsAreAcyclic.of_rank String.length fun x hx =>
    hrank x (List.mem_range.mpr hx)
  obtain ⟨e, he, -⟩ := document_expansion_ends hparse hresolve hacyclic 3 hdocument
  exact ⟨parsed, resolved, hparse, hresolve, hb, hi, hacyclic, hdocument, e, he⟩

end Session

end PairMarkup
