import PairMarkup.Proofs.Parsing
import PairMarkup.Proofs.Resolution.Simulation

namespace PairMarkup

open List Progress Kind Config

theorem Kind.isAliasDefinition_of_usage {kind : Kind} (h : kind.isAliasUsage) : kind.isAliasDefinition = false := by
  cases kind <;> simp_all [isAliasUsage, isAliasDefinition]

namespace PairTree

/-- How a worklist `ids` with the pairs `handled` and the definitions `entered` so far
    stands to the tree. Only what hangs from a module is met, nothing but definitions
    twice, and nothing is forgotten. `size₀` is the size that the tree had at first. -/
structure Covered (modules : List PairId) (size₀ : Nat) (t : PairTree)
    (ids handled entered : List PairId) : Prop extends t.Owned modules where
  ids_lt : ∀ x ∈ ids, x < t.size
  handled_lt : ∀ x ∈ handled, x < t.size
  handled_plain : ∀ x ∈ handled, (t.kind x).isAliasDefinition = false
  entered_definition : ∀ x ∈ entered, (t.kind x).isAliasDefinition = true
  entered_nodup : entered.Nodup
  fresh : (ids.filter (fun x => !(t.kind x).isAliasDefinition) ++ handled).Nodup
  sourced : ∀ x, (t.kind x).isAliasDefinition = false → x ∈ ids ∨ x ∈ handled →
    x ∈ modules ∨ ∃ q, t.parent? x = some q ∧ (q ∈ handled ∨ q ∈ entered)
  closed : ∀ q, q ∈ handled ∨ q ∈ entered → ∀ c ∈ (t.get q).held, (c ∈ handled ∨ c ∈ entered) ∨ c ∈ ids
  modules_met : ∀ m ∈ modules, (m ∈ handled ∨ m ∈ entered) ∨ m ∈ ids
  size_le : t.size ≤ size₀ + (handled.filter (· < size₀)).length
  scope_lt : ∀ x, (t.kind x).isScope = true → x < size₀

variable {modules : List PairId} {size₀ : Nat} {t t' : PairTree}
  {ids ids' handled entered : List PairId}

theorem Owned.of_shape (h : t.Owned modules) (hshape : t'.shape = t.shape) : t'.Owned modules where
  wellFormed := h.wellFormed.of_shape hshape
  module_kind m hm := (isModule_eq_of_shape hshape m).trans (h.module_kind m hm)
  module_parent x hx := by
    rw [isModule_eq_of_shape hshape] at hx
    exact (parent?_eq_of_shape hshape x).trans (h.module_parent x hx)

theorem lt_size_of_definition {x : PairId} (h : (t.kind x).isAliasDefinition) : x < t.size :=
  lt_size_of_kind fun hcomment => by
    cases hkind : t.kind x <;> simp [hkind, isAliasDefinition, isComment] at h hcomment

theorem Owned.split (h : t.Owned modules) {id : PairId} (hsplit : t.IsSplit t' id) (hid : id < t.size) :
    t'.Owned modules where
  wellFormed := hsplit.wellFormed h.wellFormed hid
  module_kind m hm := (hsplit.flag_eq (f := isModule) rfl m).trans (h.module_kind m hm)
  module_parent x hx := by
    rw [hsplit.flag_eq (f := isModule) rfl] at hx
    have hroot := h.module_parent x hx
    have hne : x ≠ t.size := by
      rintro rfl
      rw [kind, get_eq_default le_rfl] at hx
      cases hx
    rw [hsplit.parent?_eq hne]
    · exact hroot
    · intro hmem
      rw [h.wellFormed.mem_held_iff.mp (mem_held_of_mem_children hmem)] at hroot
      cases hroot

namespace Covered

/-- The order of the worklist and what resolving adds to pairs do not matter. -/
theorem of_shape (h : t.Covered modules size₀ ids handled entered) (hshape : t'.shape = t.shape)
    (hids : ids'.Perm ids) : t'.Covered modules size₀ ids' handled entered where
  toOwned := h.toOwned.of_shape hshape
  ids_lt x hx := size_eq_of_shape hshape ▸ h.ids_lt x (hids.mem_iff.mp hx)
  handled_lt x hx := size_eq_of_shape hshape ▸ h.handled_lt x hx
  handled_plain x hx := (isAliasDefinition_eq_of_shape hshape x).trans (h.handled_plain x hx)
  entered_definition x hx := (isAliasDefinition_eq_of_shape hshape x).trans (h.entered_definition x hx)
  entered_nodup := h.entered_nodup
  fresh := by
    simp only [isAliasDefinition_eq_of_shape hshape]
    exact ((hids.filter _).append_right _).nodup_iff.mpr h.fresh
  sourced x hx hmem := by
    rw [isAliasDefinition_eq_of_shape hshape] at hx
    rw [parent?_eq_of_shape hshape]
    exact h.sourced x hx (hmem.imp_left hids.mem_iff.mp)
  closed q hq c hc := by
    rw [held_eq_of_shape hshape] at hc
    exact (h.closed q hq c hc).imp_right hids.mem_iff.mpr
  modules_met m hm := (h.modules_met m hm).imp_right hids.mem_iff.mpr
  size_le := size_eq_of_shape hshape ▸ h.size_le
  scope_lt x hx := h.scope_lt x (isScope_eq_of_shape hshape x ▸ hx)

variable {id : PairId}

theorem skip (h : t.Covered modules size₀ (id :: ids) handled entered)
    (hid : id ∈ entered) : t.Covered modules size₀ ids handled entered := by
  have hforget : ∀ c, (c ∈ handled ∨ c ∈ entered) ∨ c ∈ id :: ids → (c ∈ handled ∨ c ∈ entered) ∨ c ∈ ids := by
    rintro c (hdone | hmem)
    · exact .inl hdone
    · rcases mem_cons.mp hmem with rfl | hmem
      · exact .inl (.inr hid)
      · exact .inr hmem
  exact { h with
    ids_lt := fun x hx => h.ids_lt x (mem_cons_of_mem _ hx)
    fresh := h.fresh.sublist (((sublist_cons_self id ids).filter _).append_right _)
    sourced := fun x hx hmem => h.sourced x hx (hmem.imp_left (mem_cons_of_mem _))
    closed := fun q hq c hc => hforget c (h.closed q hq c hc)
    modules_met := fun m hm => hforget m (h.modules_met m hm) }

section

variable (h : t.Covered modules size₀ ids handled entered)

include h

/-- What a pair holds that was not met before is not met either, definitions
    excepted. -/
theorem not_met_of_held {id c : PairId} (hid : id ∉ handled ∧ id ∉ entered) (hc : c ∈ (t.get id).held)
    (hplain : (t.kind c).isAliasDefinition = false) : c ∉ ids ∧ c ∉ handled := by
  have hparent := h.wellFormed.mem_held_iff.mp hc
  rw [← not_or]
  intro hmem
  rcases h.sourced c hplain hmem with hmodule | ⟨q, hq, hdone⟩
  · exact h.module_not_held hmodule id hc
  · rw [hparent] at hq
    cases hq
    exact hdone.elim hid.1 hid.2

theorem fresh_held (hid : id ∉ handled ∧ id ∉ entered) :
    (((t.get id).held ++ ids).filter (fun x => !(t.kind x).isAliasDefinition) ++ handled).Nodup := by
  rw [filter_append, append_assoc]
  refine nodup_append.mpr ⟨(h.wellFormed.held_nodup id).filter _, h.fresh, ?_⟩
  rintro c hc _ hmem rfl
  obtain ⟨hheld, hplain⟩ := mem_filter.mp hc
  obtain ⟨hids, hhandled⟩ := h.not_met_of_held hid hheld (by simpa using hplain)
  rcases mem_append.mp hmem with hmem | hmem
  · exact hids (mem_of_mem_filter hmem)
  · exact hhandled hmem

theorem enter {e : PairId} (he : (t.kind e).isAliasDefinition) (hnew : e ∉ entered) :
    t.Covered modules size₀ ((t.get e).held ++ ids) handled (e :: entered) := by
  have hhandled : e ∉ handled := by
    intro hmem
    rw [h.handled_plain e hmem] at he
    cases he
  exact { h with
    ids_lt := fun x hx => (mem_append.mp hx).elim h.wellFormed.held_lt_size (h.ids_lt x)
    entered_definition := fun x hx => by
      rcases mem_cons.mp hx with rfl | hx
      · exact he
      · exact h.entered_definition x hx
    entered_nodup := nodup_cons.mpr ⟨hnew, h.entered_nodup⟩
    fresh := h.fresh_held ⟨hhandled, hnew⟩
    sourced := fun x hx hmem => by
      have hold : x ∈ ids ∨ x ∈ handled →
          x ∈ modules ∨ ∃ q, t.parent? x = some q ∧ (q ∈ handled ∨ q ∈ e :: entered) := fun hmem =>
        (h.sourced x hx hmem).imp_right fun ⟨q, hq, hdone⟩ =>
          ⟨q, hq, hdone.imp_right (mem_cons_of_mem _)⟩
      rcases hmem with hmem | hmem
      · rcases mem_append.mp hmem with hmem | hmem
        · exact .inr ⟨e, h.wellFormed.mem_held_iff.mp hmem, .inr mem_cons_self⟩
        · exact hold (.inl hmem)
      · exact hold (.inr hmem)
    closed := fun q hq c hc => by
      have hq' : q = e ∨ q ∈ handled ∨ q ∈ entered := by
        rcases hq with hq | hq
        · exact .inr (.inl hq)
        · exact (mem_cons.mp hq).imp_right .inr
      rcases hq' with rfl | hq
      · exact .inr (mem_append_left _ hc)
      · exact (h.closed q hq c hc).imp (Or.imp_right (mem_cons_of_mem _)) (mem_append_right _)
    modules_met := fun m hm =>
      (h.modules_met m hm).imp (Or.imp_right (mem_cons_of_mem _)) (mem_append_right _) }

end

section

variable (h : t.Covered modules size₀ (id :: ids) handled entered) (hplain : (t.kind id).isAliasDefinition = false)

include h hplain

theorem not_met_of_plain : id ∉ handled ∧ id ∉ entered := by
  constructor
  · intro hmem
    have hfresh := h.fresh
    rw [filter_cons_of_pos (by simpa using hplain), cons_append] at hfresh
    exact (nodup_cons.mp hfresh).1 (mem_append_right _ hmem)
  · intro hmem
    rw [h.entered_definition id hmem] at hplain
    cases hplain

theorem handle : t.Covered modules size₀ ((t.get id).held ++ ids) (id :: handled) entered := by
  have hid := h.not_met_of_plain hplain
  have hmet : ∀ c, (c ∈ handled ∨ c ∈ entered) ∨ c ∈ id :: ids →
      (c ∈ id :: handled ∨ c ∈ entered) ∨ c ∈ (t.get id).held ++ ids := by
    rintro c (hdone | hmem)
    · exact .inl (hdone.imp_left (mem_cons_of_mem _))
    · rcases mem_cons.mp hmem with rfl | hmem
      · exact .inl (.inl mem_cons_self)
      · exact .inr (mem_append_right _ hmem)
  exact { h with
    ids_lt := fun x hx => (mem_append.mp hx).elim h.wellFormed.held_lt_size
      fun hx => h.ids_lt x (mem_cons_of_mem _ hx)
    handled_lt := fun x hx => by
      rcases mem_cons.mp hx with rfl | hx
      · exact h.ids_lt x mem_cons_self
      · exact h.handled_lt x hx
    handled_plain := fun x hx => by
      rcases mem_cons.mp hx with rfl | hx
      · exact hplain
      · exact h.handled_plain x hx
    fresh := by
      refine (List.Perm.nodup_iff ?_).mp (h.fresh_held hid)
      rw [filter_append, filter_append, filter_cons_of_pos (by simpa using hplain), append_assoc, append_assoc]
      exact List.Perm.append_left _ perm_middle.symm
    sourced := fun x hx hmem => by
      have hold : x ∈ id :: ids ∨ x ∈ handled →
          x ∈ modules ∨ ∃ q, t.parent? x = some q ∧ (q ∈ id :: handled ∨ q ∈ entered) := fun hmem =>
        (h.sourced x hx hmem).imp_right fun ⟨q, hq, hdone⟩ =>
          ⟨q, hq, hdone.imp_left (mem_cons_of_mem _)⟩
      rcases hmem with hmem | hmem
      · rcases mem_append.mp hmem with hmem | hmem
        · exact .inr ⟨id, h.wellFormed.mem_held_iff.mp hmem, .inl mem_cons_self⟩
        · exact hold (.inl (mem_cons_of_mem _ hmem))
      · rcases mem_cons.mp hmem with rfl | hmem
        · exact hold (.inl mem_cons_self)
        · exact hold (.inr hmem)
    closed := fun q hq c hc => by
      have hq' : q = id ∨ q ∈ handled ∨ q ∈ entered := by
        rcases hq with hq | hq
        · exact (mem_cons.mp hq).imp_right .inl
        · exact .inr (.inr hq)
      rcases hq' with rfl | hq
      · exact .inr (mem_append_left _ hc)
      · exact hmet c (h.closed q hq c hc)
    modules_met := fun m hm => hmet m (h.modules_met m hm)
    size_le := h.size_le.trans (Nat.add_le_add_left ((sublist_cons_self id handled).filter _).length_le _) }

end

/-- While the children of a pair wait, only definitions among them may wait twice or be
    met. -/
theorem not_child_of_plain {id x : PairId} (h : t.Covered modules size₀ ((t.get id).held ++ ids) handled entered)
    (hplain : (t.kind x).isAliasDefinition = false)
    (hx : x ∈ (t.get id).items.getD [] ++ ids ∨ x ∈ handled) : x ∉ t.children id := by
  intro hchild
  have hfresh := h.fresh
  rw [Pair.held, append_assoc, filter_append, append_assoc] at hfresh
  refine (nodup_append.mp hfresh).2.2 x (mem_filter.mpr ⟨hchild, by simpa using hplain⟩) x ?_ rfl
  rcases hx with hx | hx
  · exact mem_append_left _ (mem_filter.mpr ⟨hx, by simpa using hplain⟩)
  · exact mem_append_right _ hx

/-- The new element of a split waits in the place of the children, and for the first
    time. -/
theorem fresh_split (h : t.Covered modules size₀ ((t.get id).held ++ ids) handled entered) :
    ((t.size :: ((t.get id).items.getD [] ++ ids)).filter (fun x => !(t.kind x).isAliasDefinition) ++
      handled).Nodup := by
  have hsub : ((t.get id).items.getD [] ++ ids).Sublist ((t.get id).held ++ ids) :=
    (sublist_append_right _ _).append_right _
  have hplain : (t.kind t.size).isAliasDefinition = false := by
    rw [kind, get_eq_default le_rfl]
    rfl
  rw [filter_cons_of_pos (by simpa using hplain), cons_append]
  refine nodup_cons.mpr ⟨fun hmem => ?_, h.fresh.sublist ((hsub.filter _).append_right handled)⟩
  rcases mem_append.mp hmem with hmem | hmem
  · exact lt_irrefl _ (h.ids_lt _ (hsub.subset (mem_of_mem_filter hmem)))
  · exact lt_irrefl _ (h.handled_lt _ hmem)

/-- A split of a pair that was just handled: its children wait for the new element to
    be handled in turn. -/
theorem split (h : t.Covered modules size₀ ((t.get id).held ++ ids) handled entered)
    (hsplit : t.IsSplit t' id) (hid : id ∈ handled) (hsize : t.size + 1 ≤ size₀ + (handled.filter (· < size₀)).length) :
    t'.Covered modules size₀ ((t'.get id).held ++ ids) handled entered := by
  have hflag : ∀ x, (t'.kind x).isAliasDefinition = (t.kind x).isAliasDefinition :=
    hsplit.flag_eq (f := isAliasDefinition) rfl
  have hold : ∀ {x}, x < t.size → x < t'.size := fun hx => hsplit.size_eq ▸ Nat.lt_succ_of_lt hx
  have hwaits : ∀ {x}, x ∈ (t.get id).items.getD [] ++ ids → x ∈ (t.get id).held ++ ids := fun hx =>
    ((sublist_append_right _ _).append_right ids).subset hx
  have hmet : ∀ c, c ∉ t.children id → (c ∈ handled ∨ c ∈ entered) ∨ c ∈ (t.get id).held ++ ids →
      (c ∈ handled ∨ c ∈ entered) ∨ c ∈ t.size :: ((t.get id).items.getD [] ++ ids) := by
    rintro c hnot (hdone | hmem)
    · exact .inl hdone
    · rw [Pair.held, append_assoc] at hmem
      exact .inr (mem_cons_of_mem _ ((mem_append.mp hmem).resolve_left hnot))
  rw [hsplit.held_scope, cons_append]
  exact {
    toOwned := h.toOwned.split hsplit (h.handled_lt id hid)
    entered_nodup := h.entered_nodup
    ids_lt := fun x hx => by
      rcases mem_cons.mp hx with rfl | hx
      · exact hsplit.size_eq ▸ Nat.lt_succ_self _
      · exact hold (h.ids_lt x (hwaits hx))
    handled_lt := fun x hx => hold (h.handled_lt x hx)
    handled_plain := fun x hx => (hflag x).trans (h.handled_plain x hx)
    entered_definition := fun x hx => (hflag x).trans (h.entered_definition x hx)
    fresh := by
      simp only [hflag]
      exact h.fresh_split
    sourced := fun x hx hmem => by
      rw [hflag] at hx
      rw [mem_cons, or_assoc] at hmem
      rcases hmem with rfl | hmem
      · exact .inr ⟨id, hsplit.parent?_element, .inl hid⟩
      · have hlt : x < t.size := hmem.elim (fun hmem => h.ids_lt x (hwaits hmem)) (h.handled_lt x)
        rw [hsplit.parent?_eq hlt.ne (h.not_child_of_plain hx hmem)]
        exact h.sourced x hx (hmem.imp_left hwaits)
    closed := fun q hq c hc => by
      have hqlt : q < t.size := hq.elim (h.handled_lt q) fun hq => lt_size_of_definition (h.entered_definition q hq)
      by_cases hqid : q = id
      · rw [hqid, hsplit.held_scope] at hc
        exact .inr (mem_append_left ids hc)
      · rw [hsplit.held_eq hqlt.ne hqid] at hc
        refine hmet c (fun hmem => hqid ?_) (h.closed q hq c hc)
        have hparent := h.wellFormed.mem_held_iff.mp (mem_held_of_mem_children hmem)
        rw [h.wellFormed.mem_held_iff.mp hc] at hparent
        exact Option.some.inj hparent
    modules_met := fun m hm => hmet m
      (fun hmem => h.module_not_held hm id (mem_held_of_mem_children hmem)) (h.modules_met m hm)
    size_le := hsplit.size_eq ▸ hsize
    scope_lt := fun x hx => h.scope_lt x (hsplit.flag_eq (f := isScope) rfl x ▸ hx) }

theorem handle_splitScope (h : t.Covered modules size₀ (id :: ids) handled entered)
    (hplain : (t.kind id).isAliasDefinition = false) :
    (t.splitScope id).Covered modules size₀ (((t.splitScope id).get id).held ++ ids) (id :: handled)
      entered := by
  have hhandle := h.handle hplain
  by_cases hnamed : t.NamedScope id
  · refine hhandle.split (isSplit_splitScope h.wellFormed hnamed) mem_cons_self ?_
    rw [filter_cons_of_pos (by simpa using h.scope_lt id hnamed.1), length_cons]
    have hsize := h.size_le
    omega
  · rw [splitScope_of_not hnamed]
    exact hhandle

/-- No more pairs are met than can be: every split adds one, and no pair is split
    twice. -/
theorem length_le (h : t.Covered modules size₀ ids handled entered) :
    handled.length + entered.length ≤ 2 * size₀ := by
  have hhandled : handled.Nodup := (nodup_append.mp h.fresh).2.1
  have hall : (handled ++ entered).length ≤ t.size := by
    refine length_le_of_nodup_of_lt (nodup_append.mpr ⟨hhandled, h.entered_nodup, ?_⟩) fun x hx => ?_
    · rintro x hx _ hentered rfl
      have hplain := h.handled_plain x hx
      rw [h.entered_definition x hentered] at hplain
      cases hplain
    · rcases mem_append.mp hx with hx | hx
      · exact h.handled_lt x hx
      · exact lt_size_of_definition (h.entered_definition x hx)
  have hsplit : (handled.filter (· < size₀)).length ≤ size₀ :=
    length_le_of_nodup_of_lt (hhandled.filter _) fun x hx => by simpa using (mem_filter.mp hx).2
  have hsize := h.size_le
  rw [length_append] at hall
  omega

end Covered

theorem hoistedAs?_eq_of_shape (h : t'.shape = t.shape) (name : String) (owner : PairId) :
    t'.hoistedAs? name owner = t.hoistedAs? name owner := by
  rw [← hoistedAs?_shape, h, hoistedAs?_shape]

theorem lexical?_eq_of_shape (h : t'.shape = t.shape) (name : String) (x : PairId) :
    t'.lexical? modules name x = t.lexical? modules name x := by
  rw [← lexical?_shape, h, lexical?_shape]

end PairTree

namespace Worklist

open PairTree

/-- The worklist covers the tree, and the aliases that are known at each pair are
    those that its place in the tree gives. -/
structure Tracked (modules : List PairId) (size₀ : Nat) (root : Scope) (o : Worklist) : Prop where
  modules_eq : o.progress.set.modules = modules
  covered : o.progress.tree.Covered modules size₀ (o.pending.map Visit.id) o.progress.handled o.progress.entered
  root_eq : ∀ name, root.aliases name = modules.findSome? (o.progress.tree.hoistedAs? name)
  aliases_eq : ∀ v ∈ o.pending, ∀ name, v.aliases name = o.progress.tree.lexical? modules name v.id

open Progress

variable {modules : List PairId} {size₀ : Nat} {root : Scope} {l l' : List Visit}
  {opens opens' : List PairId} {p p' : Progress} {v : Visit} {t : PairTree}

@[simp] theorem map_id_below (v : Visit) (t : PairTree) : (v.below t).map Visit.id = (t.get v.id).held := by
  rw [Visit.below, map_map]
  exact map_id _

theorem aliases_below (hwf : t.WellFormed) (hv : ∀ name, v.aliases name = t.lexical? modules name v.id) :
    ∀ w ∈ v.below t, ∀ name, w.aliases name = t.lexical? modules name w.id := by
  intro w hw name
  obtain ⟨c, hc, rfl⟩ := mem_map.mp hw
  rw [hwf.lexical?_of_parent (hwf.mem_held_iff.mp hc), ← hv]
  rfl

namespace Tracked

theorem of_alike (h : Tracked modules size₀ root ⟨l, opens, p⟩) (halike : Alike p p')
    (hids : (l'.map Visit.id).Perm (l.map Visit.id))
    (haliases : ∀ w ∈ l', ∃ v ∈ l, w.id = v.id ∧ w.aliases = v.aliases) :
    Tracked modules size₀ root ⟨l', opens', p'⟩ where
  modules_eq := halike.modules_eq.trans h.modules_eq
  covered := by
    rw [halike.handled_eq, halike.entered_eq]
    exact h.covered.of_shape halike.shape_eq hids
  root_eq name := by
    rw [funext (hoistedAs?_eq_of_shape halike.shape_eq name)]
    exact h.root_eq name
  aliases_eq w hw name := by
    obtain ⟨v, hv, hid, heq⟩ := haliases w hw
    rw [lexical?_eq_of_shape halike.shape_eq, hid, heq]
    exact h.aliases_eq v hv name

theorem skip (h : Tracked modules size₀ root ⟨v :: l, opens, p⟩) (hv : v.id ∈ p.entered) :
    Tracked modules size₀ root ⟨l, opens', p⟩ :=
  ⟨h.modules_eq, h.covered.skip hv, h.root_eq, fun w hw => h.aliases_eq w (mem_cons_of_mem _ hw)⟩

theorem enter (h : Tracked modules size₀ root ⟨l, opens, p⟩)
    (hdef : (p.tree.kind v.id).isAliasDefinition) (hnew : v.id ∉ p.entered)
    (hnoted : Noted { p with entered := v.id :: p.entered } p')
    (hv : ∀ name, v.aliases name = p.tree.lexical? modules name v.id) :
    Tracked modules size₀ root ⟨v.below p'.tree ++ l, opens', p'⟩ := by
  have hcovered := (h.covered.enter hdef hnew).of_shape hnoted.shape_eq (.refl _)
  refine ⟨hnoted.modules_eq.trans h.modules_eq, ?_, fun name => ?_, fun w hw => ?_⟩
  · rw [hnoted.handled_eq, hnoted.entered_eq, map_append, map_id_below, held_eq_of_shape hnoted.shape_eq]
    exact hcovered
  · rw [funext (hoistedAs?_eq_of_shape hnoted.shape_eq name)]
    exact h.root_eq name
  · have hlexical : ∀ name x, p'.tree.lexical? modules name x = p.tree.lexical? modules name x :=
      fun name x => lexical?_eq_of_shape hnoted.shape_eq name x
    rcases mem_append.mp hw with hw | hw
    · exact aliases_below hcovered.wellFormed (fun name => (hv name).trans (hlexical name v.id).symm) w hw
    · exact fun name => (h.aliases_eq w hw name).trans (hlexical name w.id).symm

theorem lexical?_splitScope (hwf : t.WellFormed) (id : PairId) (name : String) {x : PairId}
    (hx : x < t.size) : (t.splitScope id).lexical? modules name x = t.lexical? modules name x := by
  by_cases hnamed : t.NamedScope id
  · exact (isSplit_splitScope hwf hnamed).lexical?_eq hwf hnamed.lt_size hnamed.1 name hx.ne
  · rw [splitScope_of_not hnamed]

theorem hoistedAs?_splitScope (hwf : t.WellFormed) (id : PairId) (name : String) (owner : PairId) :
    (t.splitScope id).hoistedAs? name owner = t.hoistedAs? name owner := by
  by_cases hnamed : t.NamedScope id
  · exact (isSplit_splitScope hwf hnamed).hoistedAs?_eq hwf hnamed.lt_size hnamed.1 name owner
  · rw [splitScope_of_not hnamed]

theorem handle (h : Tracked modules size₀ root ⟨v :: l, opens, p⟩)
    (hplain : (p.tree.kind v.id).isAliasDefinition = false)
    (hnoted : Alike ({ p with handled := v.id :: p.handled }.splitScope v.id) p') :
    Tracked modules size₀ root ⟨v.below p'.tree ++ l, opens', p'⟩ := by
  have hwf := h.covered.wellFormed
  have hcovered := (h.covered.handle_splitScope hplain).of_shape hnoted.shape_eq (.refl _)
  refine ⟨hnoted.modules_eq.trans h.modules_eq, ?_, fun name => ?_, fun w hw => ?_⟩
  · rw [hnoted.handled_eq, hnoted.entered_eq, map_append, map_id_below, held_eq_of_shape hnoted.shape_eq]
    exact hcovered
  · rw [funext (hoistedAs?_eq_of_shape hnoted.shape_eq name), h.root_eq name]
    exact congrArg (List.findSome? · modules) (funext (hoistedAs?_splitScope hwf v.id name)).symm
  · have hlexical : ∀ u ∈ v :: l, ∀ name, p'.tree.lexical? modules name u.id = p.tree.lexical? modules name u.id := by
      intro u hu name
      refine (lexical?_eq_of_shape hnoted.shape_eq name u.id).trans ?_
      exact lexical?_splitScope hwf v.id name (h.covered.ids_lt u.id (mem_map_of_mem hu))
    rcases mem_append.mp hw with hw | hw
    · refine aliases_below hcovered.wellFormed (fun name => ?_) w hw
      rw [hlexical v mem_cons_self]
      exact h.aliases_eq v mem_cons_self name
    · intro name
      rw [hlexical w (mem_cons_of_mem _ hw)]
      exact h.aliases_eq w (mem_cons_of_mem _ hw) name

theorem handle_usage (h : Tracked modules size₀ root ⟨v :: l, opens, p⟩)
    (husage : (p.tree.kind v.id).isAliasUsage) {p₁ : Progress}
    (hnoted : Noted { p with handled := v.id :: p.handled } p₁) (halike : Alike p₁ p') :
    Tracked modules size₀ root ⟨v.below p₁.tree ++ l, opens', p'⟩ := by
  rw [← below_eq_of_shape halike.shape_eq]
  refine h.handle (isAliasDefinition_of_usage husage) ?_
  rw [splitScope_of_usage husage]
  exact hnoted.alike.trans halike

end Tracked

/-- To tie a usage that was looked at changes nothing in the tree as it is written. -/
theorem handled_tie_alike (husage : (p.tree.kind v.id).isAliasUsage) {p₁ : Progress}
    (hnoted : Noted { p with handled := v.id :: p.handled } p₁) (e : PairId) :
    Alike p₁ (p₁.tie v.id e) :=
  tie_alike ((isAliasUsage_eq_of_shape hnoted.shape_eq v.id).trans husage) e

theorem Step.tracked {passes : PairId → PairId → Prop} {o o' : Worklist} (hstep : Step root passes o o')
    (h : Tracked modules size₀ root o) : Tracked modules size₀ root o' := by
  cases hstep with
  | note hperm hnoted =>
    exact h.of_alike hnoted.alike (hperm.map _) fun w hw => ⟨w, hperm.mem_iff.mp hw, rfl, rfl⟩
  | close hnoted => exact h.of_alike hnoted.alike (.refl _) fun w hw => ⟨w, hw, rfl, rfl⟩
  | skip _ hentered => exact h.skip hentered
  | @postpone v l l' p _ hperm =>
    refine h.of_alike (.refl p) (hperm.map _) fun w hw => ?_
    rcases mem_cons.mp (hperm.mem_iff.mp hw) with rfl | hw
    · exact ⟨v, mem_cons_self, rfl, rfl⟩
    · exact ⟨w, mem_cons_of_mem _ hw, rfl, rfl⟩
  | @enter v l p p' hdef hnew hnoted =>
    have henter : Tracked modules size₀ root
        ⟨{ v with chain := [v.id], opens := v.id :: v.opens }.below p'.tree ++ v :: l, [], p'⟩ :=
      h.enter hdef hnew hnoted (h.aliases_eq v mem_cons_self)
    have hfront : Tracked modules size₀ root
        ⟨v :: ({ v with chain := [v.id], opens := v.id :: v.opens }.below p'.tree ++ l), [], p'⟩ :=
      henter.of_alike (.refl p') (perm_middle.symm.map _) fun w hw =>
        ⟨w, perm_middle.mem_iff.mpr hw, rfl, rfl⟩
    exact hfront.skip (hnoted.entered_eq ▸ mem_cons_self)
  | handle hdef _ hnoted => exact h.handle hdef hnoted.alike
  | unbound husage _ hnoted => exact h.handle_usage husage hnoted (reportName_alike ..)
  | @circular v l p p₁ branch e husage _ _ hnoted =>
    exact h.handle_usage husage hnoted
      ((handled_tie_alike husage hnoted e).trans (foldl_markCircular_marks ..).toAlike)
  | @settled v l p p₁ e husage _ _ _ hnoted =>
    exact h.handle_usage husage hnoted (handled_tie_alike husage hnoted e)
  | @follow v l p p₁ p₂ p' e husage hfound _ hnew hnoted haround hopen =>
    have halike := (handled_tie_alike husage hnoted e).trans haround.alike
    have hhandle : Tracked modules size₀ root ⟨v.below p₁.tree ++ l, v.opens, p₂⟩ :=
      h.handle_usage husage hnoted halike
    have hshape : p₂.tree.shape = p.tree.shape := halike.shape_eq.trans hnoted.shape_eq
    have hdef : (p₂.tree.kind e).isAliasDefinition := by
      rw [isAliasDefinition_eq_of_shape hshape]
      rw [h.aliases_eq v mem_cons_self] at hfound
      exact h.covered.wellFormed.definition_of_lexical? hfound
    refine hhandle.enter hdef ?_ hopen fun name => ?_
    · rw [haround.entered_eq]
      change e ∉ p₁.entered
      rw [hnoted.entered_eq]
      exact hnew
    · exact Scope.aliasFor?_scopeAround name hhandle.covered.wellFormed (hhandle.root_eq name) e

end Worklist

/-- At some moment of the walk over the modules a usage in `d` is tied to `e` while
    `e` is open and off the chain. -/
def ModuleSet.PassedOver (set : ModuleSet) (d e : PairId) : Prop :=
  ∃ m, Config.Leads (Config.start set) m ∧ m.PassesOver d e

namespace Config

open PairTree WalkAction

variable {set : ModuleSet} {m : Config}

section

variable (set)

theorem start_noted : Progress.Noted (initial set) (start set).progress :=
  lenient_noted.foldl (fun p id _ => announce_noted p none id) _

theorem start_orderly : (start set).Orderly set.globalScope (2 * set.tree.size + 2) := by
  have hnoted := start_noted set
  constructor
  · rw [hnoted.deferred_eq, start, ← append_nil (visitAll _ _), disciplined_visitAll]
    rfl
  · refine visitAll_sound (fun v hv => ?_) (Nat.le_add_right _ _)
    obtain ⟨id, -, rfl⟩ := mem_map.mp hv
    rfl

theorem pending_start : (start set).worklist.pending = set.modules.map (⟨set.globalScope.aliases, [], [], ·⟩) := by
  change pending _ (start set).agenda _ = _
  rw [start, ← append_nil (visitAll _ _), pending_visitAll, map_map]
  exact append_nil _

end

theorem start_tracked (hset : set.Parsed) :
    (start set).worklist.Tracked set.modules set.tree.size set.globalScope := by
  have hnoted := start_noted set
  have hids : (start set).worklist.pending.map Visit.id = set.modules := by
    rw [pending_start, map_map]
    exact map_id _
  have hparsed := hset.tree_parsed
  have hstart : set.tree.Covered set.modules set.tree.size set.modules [] [] :=
    { toOwned := hparsed.toOwned
      ids_lt := fun x hx => hparsed.module_lt_size hx
      handled_lt := nofun
      handled_plain := nofun
      entered_definition := nofun
      entered_nodup := .nil
      fresh := by simpa using hset.modules_nodup.filter _
      sourced := fun x _ hx => .inl (hx.resolve_right (not_mem_nil))
      closed := fun q hq => absurd hq (by simp)
      modules_met := fun m hm => .inr hm
      size_le := le_rfl
      scope_lt := fun x hx => lt_size_of_kind fun hcomment => by
        cases hkind : set.tree.kind x <;> simp [hkind, isScope, isComment] at hx hcomment }
  have hroot : ∀ name, set.globalScope.aliases name = set.modules.findSome? (set.tree.hoistedAs? name) :=
    fun name => Scope.aliasFor?_globalScope name set
  refine ⟨hnoted.modules_eq, ?_, fun name => ?_, fun v hv name => ?_⟩
  · rw [hids]
    change Covered _ _ _ _ (start set).progress.handled (start set).progress.entered
    rw [hnoted.handled_eq, hnoted.entered_eq]
    exact hstart.of_shape hnoted.shape_eq (.refl _)
  · rw [hroot]
    exact congrArg (List.findSome? · _) (funext (hoistedAs?_eq_of_shape hnoted.shape_eq name)).symm
  · rw [pending_start] at hv
    obtain ⟨m, hm, rfl⟩ := mem_map.mp hv
    have hparent := hparsed.module_root hm
    refine (hroot name).trans (Eq.trans ?_ (lexical?_eq_of_shape hnoted.shape_eq name m).symm)
    exact (lexical?_of_root hparent name).symm

/-- Coverage is what makes the walk a worklist: the depth suffices, and no pair is
    handled twice. -/
theorem Step.worklist_of_tracked {m' : Config} (hstep : Step m m') (hm : Leads (start set) m)
    (horderly : m.Orderly set.globalScope (2 * set.tree.size + 2))
    (htracked : m.worklist.Tracked set.modules set.tree.size set.globalScope) :
    Worklist.Step set.globalScope set.PassedOver m.worklist m'.worklist := by
  have hcovered := htracked.covered
  refine hstep.worklist (fun d e hpasses => ⟨m, hm, hpasses⟩) horderly hcovered.wellFormed
    (hcovered.length_le.trans_lt (by omega)) hcovered.handled_lt fun v hv hplain hhandled => ?_
  refine (nodup_append.mp hcovered.fresh).2.2 v.id ?_ v.id hhandled rfl
  exact mem_filter.mpr ⟨mem_map_of_mem hv, congrArg (!·) hplain⟩

/-- At every moment the agenda is in order and the worklist covers the tree. -/
theorem leads_tracked (hset : set.Parsed) (hm : Leads (start set) m) :
    m.Orderly set.globalScope (2 * set.tree.size + 2) ∧
      m.worklist.Tracked set.modules set.tree.size set.globalScope := by
  refine induction_on (P := fun m => m.Orderly set.globalScope (2 * set.tree.size + 2) ∧
    m.worklist.Tracked set.modules set.tree.size set.globalScope)
    ⟨start_orderly set, start_tracked hset⟩ ?_ hm
  rintro m m' hm ⟨horderly, htracked⟩ hstep
  exact ⟨hstep.orderly horderly, (hstep.worklist_of_tracked hm horderly htracked).tracked htracked⟩

/-- What holds of the worklist at the start and passes from step to step holds at
    every moment. -/
theorem worklist_induction (hset : set.Parsed) {P : Worklist → Prop} (hstart : P (start set).worklist)
    (hstep : ∀ o o', o.Tracked set.modules set.tree.size set.globalScope → P o →
      Worklist.Step set.globalScope set.PassedOver o o' → P o') (hm : Leads (start set) m) : P m.worklist := by
  refine induction_on (P := fun m => P m.worklist) hstart (fun m m' hm hP hlast => ?_) hm
  obtain ⟨horderly, htracked⟩ := leads_tracked hset hm
  exact hstep _ _ htracked hP (hlast.worklist_of_tracked hm horderly htracked)

end Config

variable {set : ModuleSet} {m x : PairId}

/-- When the walk is over, all that hangs from a module was met, and names stand for
    what they stood for. -/
theorem ModuleSet.Parsed.run_tracked (hset : set.Parsed) :
    Worklist.Tracked set.modules set.tree.size set.globalScope ⟨[], [], (run set).forget⟩ :=
  (leads_tracked hset (start_leads_run set)).2

theorem PairTree.Covered.met_of_hangsFrom {modules : List PairId} {size₀ : Nat} {t : PairTree}
    {handled entered : List PairId} (h : t.Covered modules size₀ [] handled entered)
    (hm : m ∈ modules) (hx : t.HangsFrom m x) : x ∈ handled ∨ x ∈ entered := by
  induction hx with
  | refl => exact (h.modules_met m hm).resolve_right (not_mem_nil)
  | tail _ hc ih => exact (h.closed _ ih _ hc).resolve_right (not_mem_nil)

/-- When the walk is over, all that hangs from a module was handled, definitions aside. -/
theorem ModuleSet.Parsed.run_handled (hset : set.Parsed) (hm : m ∈ set.modules) (hx : (run set).tree.HangsFrom m x)
    (hplain : ((run set).tree.kind x).isAliasDefinition = false) : x ∈ (run set).handled := by
  have hcovered := hset.run_tracked.covered
  refine (hcovered.met_of_hangsFrom hm hx).resolve_right fun hentered => ?_
  have hdef := hcovered.entered_definition x hentered
  exact Bool.false_ne_true (hplain.symm.trans hdef)

end PairMarkup
