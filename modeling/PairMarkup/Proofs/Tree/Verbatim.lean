import PairMarkup.Proofs.Tree.WellFormed
import PairMarkup.Proofs.Pair

namespace PairMarkup.PairTree

/-- Nothing is added yet to what is written, and between the references of a value there
    are only texts. Values that are put together from a block are another matter. -/
structure Verbatim (t : PairTree) : Prop where
  pair : ∀ x, (t.get x).Verbatim
  part : ∀ x, (t.get x).delimiter ≠ .colonEqual → ∀ item ∈ (t.get x).items.getD [], (t.get item).IsPart

namespace Verbatim

variable {t t' : PairTree} {owner : PairId}

theorem extend (h : t.Verbatim) (hwf : t.WellFormed)
    (hold : ∀ x, x < t.size → (t'.get x).unplaced = (t.get x).unplaced)
    (hnew : ∀ x, t.size ≤ x → (t'.get x).Verbatim ∧ (t'.get x).items = none) : t'.Verbatim where
  pair x := by
    rcases Nat.lt_or_ge x t.size with hx | hx
    · exact (h.pair x).of_unplaced (hold x hx)
    · exact (hnew x hx).1
  part x hdelimiter item hitem := by
    rcases Nat.lt_or_ge x t.size with hx | hx
    · rw [Pair.items_eq_of_unplaced (hold x hx)] at hitem
      rw [Pair.delimiter_eq_of_unplaced (hold x hx)] at hdelimiter
      have hlt : item < t.size := hwf.held_lt_size (List.mem_append_right _ hitem)
      exact (h.part x hdelimiter item hitem).of_unplaced (hold item hlt)
    · rw [(hnew x hx).2] at hitem
      cases hitem

theorem update (h : t.Verbatim) (hnot : ¬ (t.get owner).IsText)
    (hother : ∀ x, x ≠ owner → (t'.get x).unplaced = (t.get x).unplaced)
    (hkind : (t'.kind owner).isElement = (t.kind owner).isElement) (hpair : (t'.get owner).Verbatim)
    (hpart : (t'.get owner).delimiter ≠ .colonEqual → ∀ item ∈ (t'.get owner).items.getD [],
      (t'.get item).IsPart) : t'.Verbatim where
  pair x := by
    by_cases hx : x = owner
    · exact hx ▸ hpair
    · exact (h.pair x).of_unplaced (hother x hx)
  part x hdelimiter item hitem := by
    by_cases hx : x = owner
    · subst hx
      exact hpart hdelimiter item hitem
    · rw [Pair.items_eq_of_unplaced (hother x hx)] at hitem
      rw [Pair.delimiter_eq_of_unplaced (hother x hx)] at hdelimiter
      have hold := h.part x hdelimiter item hitem
      by_cases hself : item = owner
      · subst hself
        intro helement
        exact absurd (hold (hkind ▸ helement)) hnot
      · exact hold.of_unplaced (hother item hself)

/-- A pair with a value of its own may be given that value: what its parts are is known,
    and pairs may become its neighbours. -/
theorem setValue (h : t.Verbatim) (hdelimiter : (t.get owner).delimiter.isValue) (ids : List PairId) {f : Pair → Pair}
    (hkind : ∀ pair, (f pair).kind = pair.kind) (huri : ∀ pair, (f pair).namespaceUri = pair.namespaceUri)
    (hvalue : ∀ pair, pair.items = (t.get owner).items → (f pair).valueKind = .pairValue → (f pair).items = none)
    (hpart : ∀ pair, pair.items = (t.get owner).items → ∀ item ∈ (f pair).items.getD [],
      item ≠ owner ∧ (t.get item).IsPart) : ((t.setParents ids (some owner)).modify owner f).Verbatim := by
  have hparents : ∀ x, ((t.setParents ids (some owner)).get x).unplaced = (t.get x).unplaced := fun x =>
    setParents_eq_of_keeps Pair.unplaced t ids _ x fun _ _ => rfl
  have hlt : owner < t.size := by
    refine Nat.lt_of_not_le fun hle => ?_
    rw [get_eq_default hle] at hdelimiter
    cases hdelimiter
  have hitems := Pair.items_eq_of_unplaced (hparents owner)
  have hself := get_modify_self (t := t.setParents ids (some owner)) (by simpa using hlt) f
  have hother : ∀ x, x ≠ owner → (((t.setParents ids (some owner)).modify owner f).get x).unplaced =
      (t.get x).unplaced := fun x hx => by rw [get_modify_of_ne hx, hparents]
  refine h.update (Pair.not_isText_of_isValue hdelimiter) hother ?_ ⟨?_, ?_⟩ ?_
  · rw [kind, hself, hkind]
    exact Pair.isElement_eq_of_unplaced (hparents owner)
  · rw [hself, huri]
    exact ((h.pair owner).of_unplaced (hparents owner)).namespaceUri_eq
  · rw [hself]
    exact hvalue _ hitems
  · intro _ item hitem
    rw [hself] at hitem
    obtain ⟨hne, hpart⟩ := hpart _ hitems item hitem
    exact hpart.of_unplaced (hother item hne)

theorem setObject (h : t.Verbatim) {id : PairId} (hnot : ¬ (t.get id).IsText) :
    (t.modify id fun pair => { pair with valueKind := .object }).Verbatim := by
  have hkeeps : ∀ {α : Type} (g : Pair → α), (∀ pair : Pair, g { pair with valueKind := .object } = g pair) →
      g ((t.modify id fun pair => { pair with valueKind := .object }).get id) = g (t.get id) :=
    fun g hg => modify_eq_of_keeps g t id id hg
  have hvalueKind : ((t.modify id fun pair => { pair with valueKind := .object }).get id).valueKind =
      .pairValue → (t.get id).valueKind = .pairValue := by
    intro hvalue
    rw [get_modify] at hvalue
    split at hvalue
    · cases hvalue
    · exact hvalue
  have hother : ∀ x, x ≠ id → ((t.modify id fun pair => { pair with valueKind := .object }).get x).unplaced =
        (t.get x).unplaced := fun x hx => by rw [get_modify_of_ne hx]
  generalize t.modify id _ = t' at *
  have hkind := hkeeps (fun pair => pair.kind.isElement) fun _ => rfl
  have hitems := hkeeps Pair.items fun _ => rfl
  refine h.update hnot hother hkind ⟨?_, fun hvalue => ?_⟩ fun hdelimiter item hitem => ?_
  · exact (hkeeps Pair.namespaceUri fun _ => rfl).trans (h.pair id).namespaceUri_eq
  · exact hitems.trans ((h.pair id).items_eq_none (hvalueKind hvalue))
  · rw [hitems] at hitem
    rw [hkeeps Pair.delimiter fun _ => rfl] at hdelimiter
    have hpart := h.part id hdelimiter item hitem
    by_cases hself : item = id
    · subst hself
      exact fun helement => absurd (hpart (hkind ▸ helement)) hnot
    · exact hpart.of_unplaced (hother item hself)

end Verbatim

end PairMarkup.PairTree
