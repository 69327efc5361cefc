import PairMarkup.Proofs.Pair
import PairMarkup.Proofs.Tree.Attach

namespace PairMarkup

/-- A pair as it is made: without neighbours, below a module and unresolved. -/
structure Pair.Fresh (pair : Pair) : Prop where
  parent_eq : pair.parent = none
  children_eq : pair.children = []
  items_eq : pair.items = none
  not_module : pair.kind.isModule = false
  unresolved : pair.kind.Unresolved
  namespaceUri_eq : pair.namespaceUri = none

variable {pair : Pair}

theorem Pair.Fresh.held_eq (h : pair.Fresh) : pair.held = [] := by
  rw [Pair.held, h.children_eq, h.items_eq]
  rfl

theorem Pair.Fresh.verbatim (h : pair.Fresh) : pair.Verbatim := ⟨h.namespaceUri_eq, fun _ => h.items_eq⟩

namespace PairTree

/-- Modules at the top, and everything else at most once below a pair. -/
structure Owned (modules : List PairId) (t : PairTree) : Prop where
  wellFormed : t.WellFormed
  module_kind : ∀ m ∈ modules, (t.kind m).isModule = true
  module_parent : ∀ x, (t.kind x).isModule = true → t.parent? x = none

/-- What reading makes of texts: everything has its place, and no reference is
    resolved. -/
structure Parsed (modules : List PairId) (t : PairTree) : Prop extends t.Owned modules where
  unresolved : ∀ x, (t.kind x).Unresolved

/-- A detached pair that is no module. -/
structure Loose (t : PairTree) (x : PairId) : Prop extends t.Detached x where
  not_module : (t.kind x).isModule = false

theorem Loose.add {t : PairTree} {x : PairId} (h : t.Loose x) (pair : Pair) : (t.add pair).2.Loose x := by
  refine ⟨h.toDetached.add pair, ?_⟩
  rw [kind, get_add_of_ne t pair h.lt_size.ne]
  exact h.not_module

theorem loose_add (t : PairTree) {pair : Pair} (h : pair.Fresh) : (t.add pair).2.Loose t.size := by
  refine ⟨detached_add t h.parent_eq h.held_eq, ?_⟩
  rw [kind, get_add_self]
  exact h.not_module

variable {modules : List PairId} {t t' : PairTree}

namespace Owned

variable {m : PairId}

section

variable (h : t.Owned modules) (hm : m ∈ modules)

include h hm

theorem module_lt_size : m < t.size := by
  have hkind := h.module_kind m hm
  refine lt_size_of_kind fun hcomment => ?_
  cases hk : t.kind m <;> simp [hk, Kind.isModule, Kind.isComment] at hkind hcomment

theorem module_root : t.parent? m = none := h.module_parent m (h.module_kind m hm)

theorem module_not_held (p : PairId) : m ∉ (t.get p).held := by
  intro hheld
  have hparent := h.wellFormed.mem_held_iff.mp hheld
  rw [h.module_root hm] at hparent
  cases hparent

end

end Owned

namespace Parsed

section

variable (h : t.Parsed modules)

include h

theorem of_similar_kinds (hwf : t'.WellFormed) (hmodule : ∀ x, (t'.kind x).isModule = (t.kind x).isModule)
    (hunresolved : ∀ x, (t.kind x).Unresolved → (t'.kind x).Unresolved)
    (hparent : ∀ x, (t.kind x).isModule → t'.parent? x = t.parent? x) : t'.Parsed modules where
  wellFormed := hwf
  unresolved x := hunresolved x (h.unresolved x)
  module_kind m hm := hmodule m ▸ h.module_kind m hm
  module_parent x hx := by
    rw [hmodule] at hx
    rw [hparent x hx]
    exact h.module_parent x hx

theorem of_same_kinds (hwf : t'.WellFormed) (hkind : ∀ x, t'.kind x = t.kind x)
    (hparent : ∀ x, (t.kind x).isModule → t'.parent? x = t.parent? x) : t'.Parsed modules :=
  h.of_similar_kinds hwf (fun x => congrArg Kind.isModule (hkind x)) (fun x => hkind x ▸ id) hparent

theorem modify (id : PairId) {f : Pair → Pair}
    (hparent : ∀ pair, (f pair).parent = pair.parent) (hheld : ∀ pair, (f pair).held = pair.held)
    (hmodule : ∀ pair, (f pair).kind.isModule = pair.kind.isModule)
    (hunresolved : ∀ pair, pair.kind.Unresolved → (f pair).kind.Unresolved) :
    (t.modify id f).Parsed modules := by
  refine h.of_similar_kinds (h.wellFormed.modify id hparent hheld)
    (fun x => modify_eq_of_keeps (fun pair => pair.kind.isModule) t id x hmodule) (fun x hx => ?_)
    fun x _ => modify_eq_of_keeps Pair.parent t id x hparent
  rw [kind, get_modify]
  split
  · exact hunresolved _ hx
  · exact hx

theorem add {pair : Pair} (hpair : pair.Fresh) : (t.add pair).2.Parsed modules := by
  refine ⟨⟨h.wellFormed.add hpair.parent_eq hpair.held_eq, fun m hm => ?_, fun x hx => ?_⟩, fun x => ?_⟩
  · have hkind := h.module_kind m hm
    have hne : m ≠ t.size := by
      rintro rfl
      rw [kind, get_eq_default le_rfl] at hkind
      cases hkind
    rw [kind, get_add_of_ne t pair hne]
    exact hkind
  · rw [kind, get_add] at hx
    rw [parent?, get_add]
    split
    · exact hpair.parent_eq
    · rename_i hne
      rw [if_neg hne] at hx
      exact h.module_parent x hx
  · rw [kind, get_add]
    split
    · exact hpair.unresolved
    · exact h.unresolved x

theorem append {parent child : PairId} (hparent : parent < t.size)
    (hchild : t.Loose child) (hne : parent ≠ child) (hok : t.append parent child = .ok t') :
    t'.Parsed modules := by
  refine h.of_same_kinds (h.wellFormed.append hparent hchild.toDetached hne hok)
    (fun x => append_eq_of_keeps Pair.kind hok x fun _ _ _ _ => rfl) fun x hx => parent?_append hok ?_
  rintro rfl
  rw [hchild.not_module] at hx
  cases hx

end

variable {owner : PairId}

theorem parent?_setParents_module {ids : List PairId} (hids : ∀ c ∈ ids, t.Loose c)
    {x : PairId} (hx : (t.kind x).isModule) : (t.setParents ids (some owner)).parent? x = t.parent? x := by
  rw [parent?_setParents, if_neg]
  rintro ⟨hmem, -⟩
  rw [(hids x hmem).not_module] at hx
  cases hx

theorem setValueReference (h : t.Parsed modules) {reference : PairId} (howner : owner < t.size)
    (hreference : t.Loose reference) (hne : owner ≠ reference) :
    (t.setValueReference owner reference).Parsed modules := by
  refine h.of_same_kinds
    (h.wellFormed.setValueReference howner hreference.toDetached hne) (fun x => ?_) fun x hx => ?_
  · refine (modify_eq_of_keeps Pair.kind _ owner x ?_).trans ?_
    · exact fun _ => rfl
    · exact setParents_eq_of_keeps Pair.kind t _ _ x fun _ _ => rfl
  · refine (modify_eq_of_keeps Pair.parent _ owner x ?_).trans ?_
    · exact fun _ => rfl
    · exact parent?_setParents_module (by simpa using hreference) hx

theorem setItems (h : t.Parsed modules) {items : List PairId} (howner : owner < t.size)
    (hnone : (t.get owner).items = none) (hnodup : items.Nodup) (hitems : ∀ c ∈ items, t.Loose c)
    (hne : owner ∉ items) : (t.setItems owner items).Parsed modules := by
  refine h.of_same_kinds (h.wellFormed.setItems howner hnone hnodup
    (fun c hc => (hitems c hc).toDetached) hne) (fun x => ?_) fun x hx => ?_
  · refine (modify_eq_of_keeps Pair.kind _ owner x ?_).trans ?_
    · exact fun _ => rfl
    · exact setParents_eq_of_keeps Pair.kind t _ _ x fun _ _ => rfl
  · refine (modify_eq_of_keeps Pair.parent _ owner x ?_).trans ?_
    · exact fun _ => rfl
    · exact parent?_setParents_module hitems hx

end Parsed

end PairTree

end PairMarkup
