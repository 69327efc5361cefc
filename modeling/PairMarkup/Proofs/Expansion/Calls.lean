import Mathlib.Logic.Relation
import PairMarkup.Expansion

namespace PairMarkup

open List Option

/-- What is done at an occurrence. -/
inductive Call where
  /-- To expand the pair, or what stands in its place. -/
  | expand (o : Occurrence)
  /-- To find the value of the pair. -/
  | value (o : Occurrence)
  /-- To find what the alias usage or parameter stands for. -/
  | refer (o : Occurrence)

namespace PairTree

variable (t : PairTree) (limit : Nat)

/-- From one call to those that are made for it. -/
inductive Calls : Call → Call → Prop
  | replace {o q : Occurrence} : expandedKind? (t.kind o.pair) = none → q ∈ t.replacement limit o →
      Calls (.expand o) (.expand q)
  | value {o : Occurrence} : (expandedKind? (t.kind o.pair)).isSome → Calls (.expand o) (.value o)
  | inside {o q : Occurrence} {steps : Nat} {value : Option String} {valueKind : ValueKind} :
      (expandedKind? (t.kind o.pair)).isSome → t.valueTo limit steps o = some (value, valueKind) →
      q ∈ t.inside o value → Calls (.expand o) (.expand q)
  | part {o : Occurrence} {items : List PairId} {item : PairId} : (t.get o.pair).items = some items →
      item ∈ items → (t.kind item).isElement = true → Calls (.value o) (.value { o with pair := item })
  | item {o : Occurrence} {items : List PairId} {item : PairId} : (t.get o.pair).items = some items →
      item ∈ items → (t.kind item).isElement = false → Calls (.value o) (.refer { o with pair := item })
  | reference {o : Occurrence} {reference : PairId} : (t.get o.pair).items = none →
      (t.get o.pair).valueKind = .pairValue → t.reference? o.pair = some reference →
      Calls (.value o) (.refer { o with pair := reference })
  | source {o q : Occurrence} : t.valueSource? limit o = some q → Calls (.refer o) (.value q)

/-- The value at `o` is found through the one at `q`. -/
def NeedsValue (o q : Occurrence) : Prop := t.Calls limit (.value o) (.value q) ∨
    ∃ r, t.Calls limit (.value o) (.refer r) ∧ t.Calls limit (.refer r) (.value q)

end PairTree

variable {α β : Type}

theorem isSome_mapM {f : α → Option β} {as : List α} (h : ∀ a ∈ as, (f a).isSome) : (as.mapM f).isSome := by
  induction as with
  | nil => rfl
  | cons a as ih =>
    obtain ⟨b, hb⟩ := isSome_iff_exists.mp (h a mem_cons_self)
    obtain ⟨bs, hbs⟩ := isSome_iff_exists.mp (ih fun a ha => h a (mem_cons_of_mem _ ha))
    simp [mapM_cons, hb, hbs]

theorem mapM_mono {f g : α → Option β} {as : List α} {bs : List β}
    (hfg : ∀ a ∈ as, ∀ b, f a = some b → g a = some b) (h : as.mapM f = some bs) : as.mapM g = some bs := by
  induction as generalizing bs with
  | nil => exact h
  | cons a as ih =>
    rw [mapM_cons] at h ⊢
    simp only [bind, bind_eq_some_iff] at h ⊢
    obtain ⟨b, hb, rest, hrest, hbs⟩ := h
    exact ⟨b, hfg a mem_cons_self b hb, rest, ih (fun a ha => hfg a (mem_cons_of_mem _ ha)) hrest, hbs⟩

/-- The pair with its value and what was found inside of it. -/
def Pair.expanded (pair : Pair) (kind : ExpandedKind)
    (found : Option String × ValueKind) (children : List Expanded) : Expanded where
  kind
  name := pair.nameText
  nsPrefix := pair.nsPrefix
  namespaceUri := pair.namespaceUri
  value := found.1
  valueKind := if found.1.isNone && !children.isEmpty then .object else found.2
  isChoice := pair.isChoice
  children

namespace PairTree

variable {o q : Occurrence} {valueSteps n : Nat} {t : PairTree} {limit : Nat} {result : List Expanded}
  {within : Surroundings} {kind : ExpandedKind}

/-- The value of what a reference stands for, given how to find values. -/
def followed (ask : Occurrence → Option (Option String × ValueKind)) :
    Option Occurrence → Option (Option String × ValueKind)
  | some source => ask source
  | none => some (none, .none)

theorem valueTo_of_items {items : List PairId} (h : (t.get o.pair).items = some items) (n : Nat) :
    t.valueTo limit (n + 1) o = (items.mapM fun item =>
        if (t.kind item).isElement then t.valueTo limit n { o with pair := item }
        else followed (t.valueTo limit n) (t.valueSource? limit { o with pair := item })).map fun parts =>
          (some (String.join (parts.map fun part => part.1.getD "")), .concatenation) := by
  simp only [valueTo, h]
  rfl

theorem valueTo_of_pairValue (hitems : (t.get o.pair).items = none)
    (hkind : (t.get o.pair).valueKind = .pairValue) (n : Nat) :
    t.valueTo limit (n + 1) o = followed (t.valueTo limit n) ((t.reference? o.pair).bind fun reference =>
      t.valueSource? limit { o with pair := reference }) := by
  simp only [valueTo, hitems, hkind, if_true]
  rfl

theorem valueTo_of_plain (hitems : (t.get o.pair).items = none) (hkind : (t.get o.pair).valueKind ≠ .pairValue)
    (n : Nat) : t.valueTo limit (n + 1) o = some ((t.get o.pair).value, (t.get o.pair).valueKind) := by
  simp only [valueTo, hitems, if_neg hkind]

theorem isSome_followed {ask : Occurrence → Option (Option String × ValueKind)} {source : Option Occurrence}
    (h : ∀ q, source = some q → (ask q).isSome) : (followed ask source).isSome := by
  cases source with
  | none => rfl
  | some q => exact h q rfl

/-- A value is found if the values that it needs are found in one step less. -/
theorem isSome_valueTo_succ (h : ∀ q, t.NeedsValue limit o q → (t.valueTo limit n q).isSome) :
    (t.valueTo limit (n + 1) o).isSome := by
  cases hitems : (t.get o.pair).items with
  | some items =>
    rw [valueTo_of_items hitems, isSome_map]
    refine isSome_mapM fun item hitem => ?_
    split
    · rename_i helement
      exact h _ (.inl (.part hitems hitem helement))
    · rename_i helement
      refine isSome_followed fun q hq => h q (.inr ⟨_, .item hitems hitem ?_, .source hq⟩)
      exact Bool.not_eq_true _ ▸ helement
  | none =>
    by_cases hkind : (t.get o.pair).valueKind = .pairValue
    · rw [valueTo_of_pairValue hitems hkind]
      refine isSome_followed fun q hq => ?_
      obtain ⟨reference, hreference, hsource⟩ := bind_eq_some_iff.mp hq
      exact h q (.inr ⟨_, .reference hitems hkind hreference, .source hsource⟩)
    · rw [valueTo_of_plain hitems hkind]
      rfl

theorem valueTo_mono {m : Nat} {result : Option String × ValueKind} (hle : n ≤ m)
    (h : t.valueTo limit n o = some result) : t.valueTo limit m o = some result := by
  induction n generalizing m o result with
  | zero => cases h
  | succ n ih =>
    obtain ⟨m, rfl⟩ : ∃ k, m = k + 1 := ⟨m - 1, by omega⟩
    have hask : ∀ q result, t.valueTo limit n q = some result → t.valueTo limit m q = some result :=
      fun q result => ih (by omega)
    have hfollow : ∀ source result, followed (t.valueTo limit n) source = some result →
        followed (t.valueTo limit m) source = some result := by
      intro source result hsource
      cases source with
      | none => exact hsource
      | some q => exact hask q result hsource
    cases hitems : (t.get o.pair).items with
    | some items =>
      rw [valueTo_of_items hitems, map_eq_some_iff] at h ⊢
      obtain ⟨parts, hparts, hresult⟩ := h
      refine ⟨parts, mapM_mono (fun item _ result hitem => ?_) hparts, hresult⟩
      split
      · rename_i helement
        rw [if_pos helement] at hitem
        exact hask _ _ hitem
      · rename_i helement
        rw [if_neg helement] at hitem
        exact hfollow _ _ hitem
    | none =>
      by_cases hkind : (t.get o.pair).valueKind = .pairValue
      · rw [valueTo_of_pairValue hitems hkind] at h ⊢
        exact hfollow _ _ h
      · rw [valueTo_of_plain hitems hkind] at h ⊢
        exact h

variable (t limit) in
def expandAll (valueSteps steps : Nat) (os : List Occurrence) : Option (List Expanded) :=
  (os.mapM fun o => t.expandTo limit valueSteps steps o).map List.flatten

theorem expandTo_of_replaced (h : expandedKind? (t.kind o.pair) = none) (valueSteps n : Nat) :
    t.expandTo limit valueSteps (n + 1) o = t.expandAll limit valueSteps n (t.replacement limit o) := by
  rw [kind] at h
  simp only [expandTo, h]
  rfl

/-- A pair that is part of the document is expanded to one pair. -/
theorem expandTo_of_kept (h : expandedKind? (t.kind o.pair) = some kind) (valueSteps n : Nat) :
    t.expandTo limit valueSteps (n + 1) o = (t.valueTo limit valueSteps o).bind fun found =>
      (t.expandAll limit valueSteps n (t.inside o found.1)).map fun children =>
        [(t.get o.pair).expanded kind found children] := by
  rw [PairTree.kind] at h
  simp only [expandTo, h]
  cases t.valueTo limit valueSteps o with
  | none => rfl
  | some found => rfl

theorem isSome_expandAll {os : List Occurrence} (h : ∀ o ∈ os, (t.expandTo limit valueSteps n o).isSome) :
    (t.expandAll limit valueSteps n os).isSome := by
  rw [expandAll, isSome_map]
  exact isSome_mapM h

/-- A pair is expanded if its value is found and all that is expanded for it is, in one
    step less. -/
theorem isSome_expandTo_succ (hvalue : t.Calls limit (.expand o) (.value o) → (t.valueTo limit valueSteps o).isSome)
    (h : ∀ q, t.Calls limit (.expand o) (.expand q) → (t.expandTo limit valueSteps n q).isSome) :
    (t.expandTo limit valueSteps (n + 1) o).isSome := by
  cases hkind : expandedKind? (t.kind o.pair) with
  | none =>
    rw [expandTo_of_replaced hkind]
    exact isSome_expandAll fun q hq => h q (.replace hkind hq)
  | some kind =>
    have hkept : (expandedKind? (t.kind o.pair)).isSome := by rw [hkind]; rfl
    obtain ⟨found, hfound⟩ := isSome_iff_exists.mp (hvalue (.value hkept))
    rw [expandTo_of_kept hkind, hfound, bind_some, isSome_map]
    exact isSome_expandAll fun q hq => h q (.inside hkept hfound hq)

theorem expandTo_mono {valueSteps' m : Nat} (hvalueSteps : valueSteps ≤ valueSteps')
    (hle : n ≤ m) (h : t.expandTo limit valueSteps n o = some result) :
    t.expandTo limit valueSteps' m o = some result := by
  induction n generalizing m o result with
  | zero => cases h
  | succ n ih =>
    obtain ⟨m, rfl⟩ : ∃ k, m = k + 1 := ⟨m - 1, by omega⟩
    have hall : ∀ os result, t.expandAll limit valueSteps n os = some result →
        t.expandAll limit valueSteps' m os = some result := by
      intro os result hos
      rw [expandAll, map_eq_some_iff] at hos ⊢
      obtain ⟨parts, hparts, hresult⟩ := hos
      exact ⟨parts, mapM_mono (fun q _ _ hq => ih (by omega) hq) hparts, hresult⟩
    cases hkind : expandedKind? (t.kind o.pair) with
    | none =>
      rw [expandTo_of_replaced hkind] at h ⊢
      exact hall _ _ h
    | some kind =>
      rw [expandTo_of_kept hkind, bind_eq_some_iff] at h ⊢
      obtain ⟨found, hvalue, hinside⟩ := h
      rw [map_eq_some_iff] at hinside
      obtain ⟨children, hchildren, hresult⟩ := hinside
      refine ⟨found, valueTo_mono hvalueSteps hvalue, ?_⟩
      rw [hall _ _ hchildren, map_some, hresult]

theorem expandTo_eq_singleton
    (hkind : expandedKind? (t.kind o.pair) = some kind) (h : t.expandTo limit valueSteps n o = some result) :
    ∃ e, result = [e] := by
  cases n with
  | zero => cases h
  | succ n =>
    rw [expandTo_of_kept hkind, bind_eq_some_iff] at h
    obtain ⟨found, -, hinside⟩ := h
    rw [map_eq_some_iff] at hinside
    obtain ⟨children, -, rfl⟩ := hinside
    exact ⟨_, rfl⟩

theorem enter?_eq_some {d : PairId} (h : t.enter? limit o d = some within) :
    (t.kind d).isAliasDefinition ∧ o.depth < limit ∧ within = .call d o.pair o.within := by
  unfold enter? at h
  split at h
  · cases h
  · rename_i info hinfo
    split at h
    · cases h
    · rename_i hopen
      rw [Bool.or_eq_true, decide_eq_true_eq, not_or] at hopen
      cases h
      refine ⟨?_, Nat.lt_of_not_le hopen.2, rfl⟩
      unfold Pair.definitionInfo? at hinfo
      split at hinfo
      · rename_i hkind
        rw [kind, hkind]
        rfl
      · cases hinfo

theorem argument?_eq_some {name : String} {argument : PairId} (h : t.argument? within name = some argument) :
    ∃ d u caller, within = .call d u caller ∧ argument ∈ t.arguments u := by
  cases within with
  | document => cases h
  | call d u caller => exact ⟨d, u, caller, rfl, mem_of_find?_eq_some h⟩

variable (t limit) in
/-- The ways from an alias usage or a parameter to the pair whose value it stands for. -/
inductive Source (o : Occurrence) : Occurrence → Prop
  | definition {d : PairId} {within : Surroundings} : t.kind o.pair = .aliasUsage (some d) →
      t.enter? limit o d = some within → Source o ⟨d, within, o.depth + 1⟩
  | usage {d u : PairId} {caller : Surroundings} : (t.kind o.pair).isParameter = true →
      o.within = .call d u caller → Source o ⟨u, caller, o.depth⟩
  | argument {d u argument : PairId} {caller : Surroundings} : (t.kind o.pair).isParameter = true →
      o.within = .call d u caller → argument ∈ t.arguments u → Source o ⟨argument, caller, o.depth⟩
  | default {name : String} {id : PairId} : (t.kind o.pair).isParameter = true →
      (t.get o.pair).name = some name → t.argument? o.within name = none →
      t.defaultFor? o.within name = some id → Source o ⟨id, o.within, o.depth⟩

theorem source_of_valueSource? (h : t.valueSource? limit o = some q) : t.Source limit o q := by
  unfold valueSource? at h
  split at h
  · rename_i d hkind
    obtain ⟨within, hwithin, rfl⟩ := map_eq_some_iff.mp h
    exact .definition hkind hwithin
  · rename_i hkind
    have hparameter : (t.kind o.pair).isParameter := by rw [hkind]; rfl
    split at h
    · obtain ⟨u, hu, rfl⟩ := map_eq_some_iff.mp h
      cases hwithin : o.within with
      | document =>
        rw [hwithin] at hu
        cases hu
      | call d u' caller =>
        rw [hwithin] at hu
        cases hu
        exact .usage hparameter hwithin
    · rename_i name hname
      split at h
      · rename_i argument hargument
        obtain ⟨d, u, caller, hwithin, hmem⟩ := argument?_eq_some hargument
        cases h
        rw [hwithin]
        exact .argument hparameter hwithin hmem
      · rename_i hargument
        obtain ⟨id, hid, rfl⟩ := map_eq_some_iff.mp h
        exact .default hparameter hname hargument hid
  · cases h

variable (t limit) in
/-- The ways from a pair that is not itself part of the document to what is expanded in
    its place. -/
inductive Replaced (o : Occurrence) : Occurrence → Prop
  | child {c : PairId} : (t.kind o.pair).isAliasDefinition = false → c ∈ t.children o.pair →
      Replaced o { o with pair := c }
  | body {d c : PairId} {within : Surroundings} : t.kind o.pair = .aliasUsage (some d) →
      t.enter? limit o d = some within → c ∈ t.children d → Replaced o ⟨c, within, o.depth + 1⟩
  | argument {d u argument c : PairId} {caller : Surroundings} : (t.kind o.pair).isParameter = true →
      o.within = .call d u caller → argument ∈ t.arguments u → c ∈ t.children argument →
      Replaced o ⟨c, caller, o.depth⟩
  | given {d u c : PairId} {caller : Surroundings} : (t.kind o.pair).isParameter = true →
      o.within = .call d u caller → c ∈ t.children u → Replaced o ⟨c, caller, o.depth⟩

theorem mem_blockOf (h : q ∈ t.blockOf o) : ∃ c ∈ t.children o.pair, q = { o with pair := c } := by
  unfold blockOf at h
  split at h
  · cases h
  · obtain ⟨c, hc, rfl⟩ := mem_map.mp h
    exact ⟨c, hc, rfl⟩

theorem replaced_of_mem (h : q ∈ t.replacement limit o) : t.Replaced limit o q := by
  unfold replacement at h
  split at h
  · rename_i hkind
    obtain ⟨c, hc, rfl⟩ := mem_blockOf h
    exact .child (by rw [hkind]; rfl) hc
  · rename_i d hkind
    split at h
    · rename_i within hwithin
      obtain ⟨c, hc, rfl⟩ := mem_blockOf h
      exact .body hkind hwithin hc
    · cases h
  · rename_i hkind
    have hparameter : (t.kind o.pair).isParameter := by rw [hkind]; rfl
    split at h
    · split at h
      · rename_i argument hargument
        obtain ⟨d, u, caller, hwithin, hmem⟩ := argument?_eq_some hargument
        obtain ⟨c, hc, rfl⟩ := mem_blockOf h
        rw [hwithin]
        exact .argument hparameter hwithin hmem hc
      · obtain ⟨c, hc, rfl⟩ := mem_blockOf h
        exact .child (by rw [hkind]; rfl) hc
    · split at h
      · cases h
      · rename_i u hu
        split at h
        · cases h
        · obtain ⟨c, hc, rfl⟩ := mem_map.mp h
          cases hwithin : o.within with
          | document =>
            rw [hwithin] at hu
            cases hu
          | call d u' caller =>
            rw [hwithin] at hu
            cases hu
            exact .given hparameter hwithin (mem_filter.mp (mem_filter.mp hc).1).1
  · cases h

theorem reference?_mem {id reference : PairId} (h : t.reference? id = some reference) :
    reference ∈ t.children id := mem_of_find?_eq_some h

theorem mem_inside {value : Option String} (h : q ∈ t.inside o value) :
    ∃ c ∈ t.children o.pair, q = { o with pair := c } := by
  simp only [inside] at h
  split at h
  · split at h
    · obtain ⟨c, hc, rfl⟩ := mem_map.mp h
      exact ⟨c, reference?_mem (mem_toList.mp hc), rfl⟩
    · cases h
  · split at h
    · exact mem_blockOf h
    · cases h

end PairTree

end PairMarkup
