import PairMarkup.Proofs.Scope
import PairMarkup.Resolution.Pair

namespace PairMarkup.PairTree

open List Kind Option

/-- A scope that has a local name. -/
def NamedScope (t : PairTree) (id : PairId) : Prop := (t.kind id).isScope = true ∧ (t.get id).name ≠ none

theorem splitScope_of_not {t : PairTree} {id : PairId} (h : ¬ t.NamedScope id) : t.splitScope id = t := by
  simp only [splitScope]
  rw [if_pos]
  simp only [NamedScope, kind] at h
  cases hname : (t.get id).name <;> simp_all

/-- The element that a named scope is given, before it takes over any children. -/
def innerElement (pair : Pair) : Pair :=
  { Pair.bare .element pair.span pair.file pair.fileIndex with
    nameSpan := pair.nameSpan
    name := pair.name
    nsPrefix := pair.nsPrefix
    delimiter := pair.delimiter
    valueKind := pair.valueKind }

/-- A split, from the outside: `t'` is `t` with a new element right below the scope,
    which has the children that the scope had. -/
structure IsSplit (t t' : PairTree) (id : PairId) : Prop where
  size_eq : t'.size = t.size + 1
  element : t'.get t.size = { innerElement (t.get id) with children := t.children id, parent := some id }
  scope : t'.get id = { t.get id with name := none, children := [t.size], valueKind := .object }
  child : ∀ x ∈ t.children id, t'.get x = { t.get x with parent := some t.size }
  other : ∀ x, x ≠ t.size → x ≠ id → x ∉ t.children id → t'.get x = t.get x

variable {t : PairTree} {id : PairId}

theorem NamedScope.lt_size (h : t.NamedScope id) : id < t.size := by
  refine lt_size_of_kind fun hcomment => ?_
  have hscope := h.1
  cases hkind : t.kind id <;> simp [hkind, isScope, isComment] at hscope hcomment

theorem splitScope_eq (h : t.NamedScope id) :
    t.splitScope id = ((((((t.modify id fun pair => { pair with name := none }).takeChildren id).2.add
      (innerElement (t.get id))).2.adoptChildren t.size (t.children id)).adoptChildren id [t.size]).modify id
        fun pair => { pair with valueKind := .object }) := by
  have hnot : (!(t.get id).kind.isScope || (t.get id).name.isNone) = false := by
    have hscope : (t.get id).kind.isScope := h.1
    cases hname : (t.get id).name with
    | none => exact absurd hname h.2
    | some name => simp [hscope]
  have hchildren : ((t.modify id fun pair => { pair with name := none }).takeChildren id).1 = t.children id :=
    modify_eq_of_keeps Pair.children t id id fun _ => rfl
  simp only [splitScope, hnot, Bool.false_eq_true, if_false, hchildren, add_fst, size_takeChildren, size_modify]
  rfl

theorem isSplit_splitScope (hwf : t.WellFormed) (h : t.NamedScope id) : t.IsSplit (t.splitScope id) id := by
  have hid := h.lt_size
  have hne : id ≠ t.size := hid.ne
  have hchild : ∀ c ∈ t.children id, c < t.size ∧ c ≠ id := fun c => hwf.child_lt_ne
  have hscope : id ∉ t.children id := fun hmem => (hchild id hmem).2 rfl
  have hfresh : t.size ∉ t.children id := fun hmem => lt_irrefl _ (hchild _ hmem).1
  rw [splitScope_eq h]
  -- The trees on the way, each with what it holds in terms of the one before.
  obtain ⟨t₁, ht₁⟩ : ∃ t₁, t₁ = t.modify id fun pair => { pair with name := none } := ⟨_, rfl⟩
  have hsize₁ : t₁.size = t.size := by rw [ht₁, size_modify]
  have hchildren₁ : t₁.children id = t.children id := by
    rw [ht₁]
    exact modify_eq_of_keeps Pair.children t id id fun _ => rfl
  obtain ⟨t₂, ht₂⟩ : ∃ t₂, t₂ = (t₁.takeChildren id).2 := ⟨_, rfl⟩
  have hsize₂ : t₂.size = t.size := by rw [ht₂, size_takeChildren, hsize₁]
  have hget₂ := get_takeChildren (t := t₁) (hsize₁ ▸ hid) (by rw [hchildren₁, hsize₁]; exact hchild)
  rw [← ht₂, hchildren₁] at hget₂
  obtain ⟨t₃, ht₃⟩ : ∃ t₃, t₃ = (t₂.add (innerElement (t.get id))).2 := ⟨_, rfl⟩
  have hsize₃ : t₃.size = t.size + 1 := by rw [ht₃, size_add, hsize₂]
  have hget₃ := get_add t₂ (innerElement (t.get id))
  rw [← ht₃, hsize₂] at hget₃
  obtain ⟨t₄, ht₄⟩ : ∃ t₄, t₄ = t₃.adoptChildren t.size (t.children id) := ⟨_, rfl⟩
  have hsize₄ : t₄.size = t.size + 1 := by rw [ht₄, size_adoptChildren, hsize₃]
  have hget₄ := get_adoptChildren (t := t₃) (hsize₃ ▸ Nat.lt_succ_self t.size) fun c hc =>
    ⟨hsize₃ ▸ Nat.lt_succ_of_lt (hchild c hc).1, ne_of_lt (hchild c hc).1⟩
  rw [← ht₄] at hget₄
  obtain ⟨t₅, ht₅⟩ : ∃ t₅, t₅ = t₄.adoptChildren id [t.size] := ⟨_, rfl⟩
  have hsize₅ : t₅.size = t.size + 1 := by rw [ht₅, size_adoptChildren, hsize₄]
  have hid₄ : id < t₄.size := hid.trans (hsize₄ ▸ Nat.lt_succ_self t.size)
  have helement : ∀ c ∈ [t.size], c < t₄.size ∧ c ≠ id := by
    intro c hc
    rw [mem_singleton.mp hc]
    exact ⟨hsize₄ ▸ Nat.lt_succ_self _, hne.symm⟩
  have hget₅ := get_adoptChildren hid₄ helement
  rw [← ht₅] at hget₅
  rw [← ht₁, ← ht₂, ← ht₃, ← ht₄, ← ht₅]
  refine ⟨by rw [size_modify, hsize₅], ?_, ?_, fun x hx => ?_, fun x hx hxid hmem => ?_⟩
  · rw [get_modify_of_ne hne.symm, hget₅, if_neg hne.symm, if_pos (mem_singleton_self _), hget₄,
      if_pos rfl, children, hget₃, if_pos rfl]
    rfl
  · rw [get_modify_self (hsize₅.trans hsize₄.symm ▸ hid₄), hget₅, if_pos rfl, children, hget₄, if_neg hne,
    if_neg hscope, hget₃, if_neg hne, hget₂, if_pos rfl, ht₁, get_modify_self hid]
    rfl
  · obtain ⟨hlt, hxid⟩ := hchild x hx
    have hxe := hlt.ne
    rw [get_modify_of_ne hxid, hget₅, if_neg hxid, if_neg (by simpa using hxe), hget₄, if_neg hxe,
      if_pos hx, hget₃, if_neg hxe, hget₂, if_neg hxid, if_pos hx, ht₁, get_modify_of_ne hxid]
  · rw [get_modify_of_ne hxid, hget₅, if_neg hxid, if_neg (by simpa using hx), hget₄, if_neg hx,
      if_neg hmem, hget₃, if_neg hx, hget₂, if_neg hxid, if_neg hmem, ht₁, get_modify_of_ne hxid]

namespace IsSplit

variable {x : PairId} {t' : PairTree} {c p : PairId} {α : Type}

/-- Of what was there before, only the scope itself and the parents of its children
    change. -/
theorem eq_of_keeps (g : Pair → α) (h : t.IsSplit t' id) (hx : x ≠ t.size)
    (hparent : ∀ pair parent, g { pair with parent } = g pair)
    (hscope : x = id → ∀ pair name children valueKind, g { pair with name, children, valueKind } = g pair) :
    g (t'.get x) = g (t.get x) := by
  by_cases hxid : x = id
  · subst hxid
    rw [h.scope]
    exact hscope rfl _ _ _ _
  · by_cases hmem : x ∈ t.children id
    · rw [h.child x hmem]
      exact hparent _ _
    · rw [h.other x hx hxid hmem]

theorem kind_eq (h : t.IsSplit t' id) (hx : x ≠ t.size) : t'.kind x = t.kind x :=
  h.eq_of_keeps Pair.kind hx (fun _ _ => rfl) fun _ _ _ _ _ => rfl

theorem kind_element (h : t.IsSplit t' id) : t'.kind t.size = .element := by
  rw [kind, h.element]
  rfl

/-- The new element is like the number that was not in use before: neither a
    definition nor a usage nor an owner of names. -/
theorem flag_eq (h : t.IsSplit t' id) {f : Kind → α} (hflag : f .element = f .comment)
    (x : PairId) : f (t'.kind x) = f (t.kind x) := by
  by_cases hx : x = t.size
  · subst hx
    rw [h.kind_element, hflag, kind, get_eq_default le_rfl]
    rfl
  · rw [h.kind_eq hx]

section

variable (h : t.IsSplit t' id)

include h

theorem items_eq (x : PairId) : (t'.get x).items = (t.get x).items := by
  by_cases hx : x = t.size
  · subst hx
    rw [h.element, get_eq_default le_rfl]
    rfl
  · exact h.eq_of_keeps Pair.items hx (fun _ _ => rfl) fun _ _ _ _ _ => rfl

theorem children_eq (hx : x ≠ t.size) (hxid : x ≠ id) : t'.children x = t.children x :=
  h.eq_of_keeps Pair.children hx (fun _ _ => rfl) fun heq => absurd heq hxid

theorem children_element : t'.children t.size = t.children id := by
  rw [children, h.element]

theorem children_scope : t'.children id = [t.size] := by
  rw [children, h.scope]

theorem parent?_element : t'.parent? t.size = some id := by
  rw [parent?, h.element]

theorem parent?_child (hx : x ∈ t.children id) : t'.parent? x = some t.size := by
  rw [parent?, h.child x hx]

theorem parent?_eq (hx : x ≠ t.size) (hmem : x ∉ t.children id) : t'.parent? x = t.parent? x := by
  by_cases hxid : x = id
  · subst hxid
    rw [parent?, h.scope, parent?]
  · rw [parent?, h.other x hx hxid hmem, parent?]

theorem held_element : (t'.get t.size).held = t.children id := by
  rw [h.element]
  exact append_nil _

theorem held_scope : (t'.get id).held = t.size :: (t.get id).items.getD [] := by
  rw [h.scope]
  rfl

theorem held_eq (hx : x ≠ t.size) (hxid : x ≠ id) : (t'.get x).held = (t.get x).held := by
  rw [Pair.held, h.items_eq, ← children, h.children_eq hx hxid, Pair.held, children]

theorem held_nodup (hwf : t.WellFormed) (p : PairId) : (t'.get p).held.Nodup := by
  have hheld : (t.children id ++ (t.get id).items.getD []).Nodup := hwf.held_nodup id
  obtain ⟨hchildren, hitems, -⟩ := nodup_append.mp hheld
  by_cases hp : p = t.size
  · rw [hp, h.held_element]
    exact hchildren
  · by_cases hpid : p = id
    · rw [hpid, h.held_scope]
      refine nodup_cons.mpr ⟨fun hmem => ?_, hitems⟩
      exact lt_irrefl _ (hwf.held_lt_size (mem_append_right _ hmem))
    · rw [h.held_eq hp hpid]
      exact hwf.held_nodup p

theorem element_mem_held_iff (hwf : t.WellFormed) {p : PairId} : t.size ∈ (t'.get p).held ↔ p = id := by
  have hold : ∀ {q}, t.size ∉ (t.get q).held := fun hmem => lt_irrefl _ (hwf.held_lt_size hmem)
  by_cases hpid : p = id
  · rw [hpid, h.held_scope]
    simp
  · refine iff_of_false (fun hmem => ?_) hpid
    by_cases hp : p = t.size
    · rw [hp, h.held_element] at hmem
      exact hold (mem_held_of_mem_children hmem)
    · rw [h.held_eq hp hpid] at hmem
      exact hold hmem

theorem child_mem_held_iff (hwf : t.WellFormed) (hc : c ∈ t.children id) : c ∈ (t'.get p).held ↔ p = t.size := by
  have hparent := hwf.mem_held_iff.mp (mem_held_of_mem_children hc)
  by_cases hp : p = t.size
  · rw [hp, h.held_element]
    exact iff_of_true hc rfl
  · refine iff_of_false (fun hmem => ?_) hp
    by_cases hpid : p = id
    · rw [hpid, h.held_scope] at hmem
      rcases mem_cons.mp hmem with heq | hitem
      · exact (lt_size_of_parent hparent).ne heq
      · have hheld : (t.children id ++ (t.get id).items.getD []).Nodup := hwf.held_nodup id
        exact (nodup_append.mp hheld).2.2 c hc c hitem rfl
    · rw [h.held_eq hp hpid, hwf.mem_held_iff, hparent] at hmem
      exact hpid (some.inj hmem).symm

theorem other_mem_held_iff (hc : c ≠ t.size) (hmem : c ∉ t.children id) : c ∈ (t'.get p).held ↔ c ∈ (t.get p).held := by
  by_cases hp : p = t.size
  · rw [hp, h.held_element, get_eq_default le_rfl]
    exact iff_of_false hmem not_mem_nil
  · by_cases hpid : p = id
    · rw [hpid, h.held_scope, Pair.held, mem_cons, mem_append]
      exact ⟨fun hheld => .inr (hheld.resolve_left hc), fun hheld => .inr (hheld.resolve_left hmem)⟩
    · rw [h.held_eq hp hpid]

section

variable (hwf : t.WellFormed)

include hwf

theorem mem_held_iff : c ∈ (t'.get p).held ↔ t'.parent? c = some p := by
  by_cases hc : c = t.size
  · rw [hc, h.element_mem_held_iff hwf, h.parent?_element, some.injEq, eq_comm]
  · by_cases hmem : c ∈ t.children id
    · rw [h.child_mem_held_iff hwf hmem, h.parent?_child hmem, some.injEq, eq_comm]
    · rw [h.other_mem_held_iff hc hmem, h.parent?_eq hc hmem, hwf.mem_held_iff]

variable (hid : id < t.size)

include hid

theorem grounded : ∃ rank : PairId → Nat, ∀ c p, t'.parent? c = some p → rank p < rank c := by
  -- All ranks are doubled to make room for the new element.
  obtain ⟨rank, hrank⟩ := hwf.grounded
  refine ⟨fun x => if x = t.size then 2 * rank id + 1 else 2 * rank x, fun c p hparent => ?_⟩
  have hne : id ≠ t.size := hid.ne
  by_cases hc : c = t.size
  · rw [hc, h.parent?_element] at hparent
    cases hparent
    simp [hc, hne]
  · by_cases hmem : c ∈ t.children id
    · have hlt := hrank c id (hwf.mem_held_iff.mp (mem_held_of_mem_children hmem))
      rw [h.parent?_child hmem] at hparent
      cases hparent
      simp only [hc, if_true, if_false]
      omega
    · rw [h.parent?_eq hc hmem] at hparent
      have hlt := hrank c p hparent
      have hp : p ≠ t.size := (hwf.parent_lt_size hparent).ne
      simp only [hc, hp, if_false]
      omega

theorem wellFormed : t'.WellFormed := ⟨h.held_nodup hwf, h.mem_held_iff hwf, h.grounded hwf hid⟩

/-- What is above a pair is as before but for the new element. -/
theorem ancestors_eq (hx : x ≠ t.size) : (t'.ancestors x).filter (· ≠ t.size) = t.ancestors x := by
  have hwf' := h.wellFormed hwf hid
  have hne : id ≠ t.size := hid.ne
  induction x using hwf.induction_up with
  | root x hroot =>
    have hmem : x ∉ t.children id := by
      intro hmem
      rw [hwf.mem_held_iff.mp (mem_held_of_mem_children hmem)] at hroot
      cases hroot
    rw [ancestors_eq_nil hroot, ancestors_eq_nil ((h.parent?_eq hx hmem).trans hroot)]
    rfl
  | child x p hparent ih =>
    have hp : p ≠ t.size := (hwf.parent_lt_size hparent).ne
    rw [hwf.ancestors_eq_cons hparent]
    by_cases hmem : x ∈ t.children id
    · have hpid : id = p := by
        rw [hwf.mem_held_iff.mp (mem_held_of_mem_children hmem)] at hparent
        exact some.inj hparent
      subst hpid
      rw [hwf'.ancestors_eq_cons (h.parent?_child hmem), hwf'.ancestors_eq_cons h.parent?_element]
      simpa [hne] using ih hne
    · rw [hwf'.ancestors_eq_cons ((h.parent?_eq hx hmem).trans hparent)]
      simpa [hp] using ih hp

theorem enclosingDefinition?_eq (hx : x ≠ t.size) : t'.enclosingDefinition? x = t.enclosingDefinition? x := by
  rw [enclosingDefinition?, enclosingDefinition?, ← h.ancestors_eq hwf hid hx, find?_filter]
  refine congrArg (fun p => (t'.ancestors x).find? p) (funext fun a => ?_)
  by_cases ha : a = t.size
  · simp [ha, h.kind_element, isAliasDefinition]
  · simp [ha, h.kind_eq ha]

theorem definitions_eq (hscope : (t.kind id).isScope) (hx : x < t.size) :
    t'.definitionsTo t'.size x = t.definitionsTo t.size x := by
  have hwf' := h.wellFormed hwf hid
  have hlt : ∀ {y}, y < t.size → y < t'.size := fun hy => by
    rw [h.size_eq]
    exact Nat.lt_succ_of_lt hy
  have hkind : (t.kind id).isAliasDefinition = false ∧ (t.kind id).isScopeOwner = false := by
    cases hk : t.kind id <;> simp [hk, isScope] at hscope
    exact ⟨rfl, rfl⟩
  refine hwf.induction_down (P := fun x => t'.definitionsTo t'.size x = t.definitionsTo t.size x) ?_ hx
  intro x hx ih
  have hxe := hx.ne
  rw [hwf'.acyclic.definitions_eq (hlt hx), hwf.acyclic.definitions_eq hx, h.kind_eq hxe]
  by_cases hxid : x = id
  · subst hxid
    have helement : t.size < t'.size := h.size_eq ▸ Nat.lt_succ_self _
    simp only [hkind.1, hkind.2, h.children_scope, flatMap_cons, flatMap_nil, append_nil]
    rw [hwf'.acyclic.definitions_eq helement, h.kind_element, h.children_element]
    exact flatMap_congr fun c hc => ih c (mem_held_of_mem_children hc)
  · rw [h.children_eq hxe hxid, flatMap_congr fun c hc => ih c (mem_held_of_mem_children hc)]

theorem hoisted_eq (hscope : (t.kind id).isScope) (owner : PairId) : t'.hoisted owner = t.hoisted owner := by
  rw [hoisted, hoisted, h.flag_eq (f := isScopeOwner) rfl]
  split
  · rename_i howner
    have hne : owner ≠ t.size := by
      rintro rfl
      rw [kind, get_eq_default le_rfl] at howner
      cases howner
    have hneid : owner ≠ id := by
      rintro rfl
      cases hk : t.kind owner <;> simp [hk, isScope, isScopeOwner] at hscope howner
    rw [h.children_eq hne hneid]
    exact flatMap_congr fun c hc =>
      h.definitions_eq hwf hid hscope (hwf.held_lt_size (mem_held_of_mem_children hc))
  · rfl

theorem hoistedAs?_eq (hscope : (t.kind id).isScope) (name : String) (owner : PairId) :
    t'.hoistedAs? name owner = t.hoistedAs? name owner := by
  rw [hoistedAs?, hoistedAs?, h.hoisted_eq hwf hid hscope, ← head?_filter, ← head?_filter]
  refine congrArg List.head? (filter_congr fun d hd => ?_)
  have hdef := (hwf.mem_hoisted_iff.mp hd).kind
  have hne : d ≠ t.size := by
    rintro rfl
    rw [kind, get_eq_default le_rfl] at hdef
    cases hdef
  have hneid : d ≠ id := by
    rintro rfl
    rw [not_scope_of_definition hdef] at hscope
    cases hscope
  rw [h.eq_of_keeps Pair.nameText hne (fun _ _ => rfl) fun heq => absurd heq hneid]

theorem lexical?_eq (hscope : (t.kind id).isScope) {modules : List PairId} (name : String) (hx : x ≠ t.size) :
    t'.lexical? modules name x = t.lexical? modules name x := by
  have helement : t.hoistedAs? name t.size = none := by
    refine hoistedAs?_eq_none_of_kind ?_ name
    rw [kind, get_eq_default le_rfl]
    rfl
  have hfilter : ∀ ids : List PairId, (ids.filter (· ≠ t.size)).findSome? (t.hoistedAs? name) =
      ids.findSome? (t.hoistedAs? name) := by
    intro ids
    induction ids with
    | nil => rfl
    | cons a ids ih =>
      by_cases ha : a = t.size
      · simpa [ha, helement] using ih
      · rw [filter_cons_of_pos (by simpa using ha), findSome?_cons, findSome?_cons, ih]
  rw [lexical?, lexical?, funext (h.hoistedAs?_eq hwf hid hscope name), ← h.ancestors_eq hwf hid hx, hfilter]

end

end

end IsSplit

end PairMarkup.PairTree
