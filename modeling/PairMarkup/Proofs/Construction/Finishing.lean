import PairMarkup.Proofs.Construction.Lines
import PairMarkup.Proofs.Tree.Preorder

namespace PairMarkup

open List

namespace PairTree

variable {root : PairId} {t t' t'' : PairTree} {x : PairId}

theorem Apart.le_of_hangsFrom (h : t.Apart root) (hwf : t.WellFormed) {x y : PairId}
    (hy : t.HangsFrom x y) (hx : root ≤ x) : root ≤ y := by
  induction hy with
  | refl => exact hx
  | @tail p c _ hc ih =>
    exact Nat.le_of_not_lt fun hlt => Nat.not_lt.mpr ih ((h c p (hwf.mem_held_iff.mp hc)).mp hlt)

/-- A pair is left as it is. One without a mark behind its name may still get the kind of value that its
    block makes. -/
structure Kept (t t' : PairTree) (x : PairId) : Prop where
  children_eq : t'.children x = t.children x
  items_eq : (t'.get x).items = (t.get x).items
  valueKind_eq : (t.get x).delimiter ≠ .none → (t'.get x).valueKind = (t.get x).valueKind

/-- The children of a pair have become the parts of its value, comments excepted. -/
structure Gathered (t t' : PairTree) (x : PairId) : Prop where
  delimiter_eq : (t.get x).delimiter = .colonEqual
  none : (t.get x).items = none
  children_eq : t'.children x = (t.children x).filter fun c => (t.kind c).isComment
  items_eq : (t'.get x).items = some (t.contentChildren x)
  valueKind_eq : (t'.get x).valueKind = .concatenation

/-- Blocks of the module `root` are closed. -/
structure Settles (root : PairId) (t t' : PairTree) : Prop where
  size_eq : t'.size = t.size
  before : ∀ x, x < root → t'.get x = t.get x
  parent_eq : ∀ x, t'.parent? x = t.parent? x
  told_eq : ∀ x, (t'.get x).told.heading = (t.get x).told.heading
  outcome : ∀ x, Kept t t' x ∨ Gathered t t' x

theorem Kept.of_get_eq (h : t'.get x = t.get x) : Kept t t' x where
  children_eq := by rw [children, h, children]
  items_eq := by rw [h]
  valueKind_eq _ := by rw [h]

namespace Settles

theorem refl (root : PairId) (t : PairTree) : Settles root t t :=
  ⟨rfl, fun _ _ => rfl, fun _ => rfl, fun _ => rfl, fun _ => .inl (.of_get_eq rfl)⟩

section

variable (h : Settles root t t')

include h

section

variable (x)

theorem span_eq : (t'.get x).span = (t.get x).span := (congrArg Pair.span (h.told_eq x) :)

theorem nameSpan_eq : (t'.get x).nameSpan = (t.get x).nameSpan := (congrArg Pair.nameSpan (h.told_eq x) :)

theorem delimiter_eq : (t'.get x).delimiter = (t.get x).delimiter := (congrArg Pair.delimiter (h.told_eq x) :)

theorem value_eq : (t'.get x).value = (t.get x).value := (congrArg Pair.value (h.told_eq x) :)

theorem unplaced_eq : (t'.kind x).unplaced = (t.kind x).unplaced := (congrArg Pair.kind (h.told_eq x) :)

theorem isComment_eq : (t'.kind x).isComment = (t.kind x).isComment := by
  rw [← Kind.isComment_unplaced, h.unplaced_eq, Kind.isComment_unplaced]

end

theorem contentChildren_eq (hx : Kept t t' x) : t'.contentChildren x = t.contentChildren x := by
  rw [contentChildren, hx.children_eq, contentChildren]
  exact filter_congr fun c _ => by rw [h.isComment_eq]

theorem trans (h' : Settles root t' t'') : Settles root t t'' where
  size_eq := h'.size_eq.trans h.size_eq
  before x hx := (h'.before x hx).trans (h.before x hx)
  parent_eq x := (h'.parent_eq x).trans (h.parent_eq x)
  told_eq x := (h'.told_eq x).trans (h.told_eq x)
  outcome x := by
    rcases h.outcome x with hx | hx
    · rcases h'.outcome x with hx' | hx'
      · refine .inl ⟨hx'.children_eq.trans hx.children_eq, hx'.items_eq.trans hx.items_eq, fun hne => ?_⟩
        rw [hx'.valueKind_eq (h.delimiter_eq x ▸ hne), hx.valueKind_eq hne]
      · refine .inr ⟨(h.delimiter_eq x).symm.trans hx'.delimiter_eq, hx.items_eq.symm.trans hx'.none, ?_, ?_,
          hx'.valueKind_eq⟩
        · rw [hx'.children_eq, hx.children_eq]
          exact filter_congr fun c _ => h.isComment_eq c
        · rw [hx'.items_eq, h.contentChildren_eq hx]
    · rcases h'.outcome x with hx' | hx'
      · refine .inr ⟨hx.delimiter_eq, hx.none, hx'.children_eq.trans hx.children_eq,
          hx'.items_eq.trans hx.items_eq, ?_⟩
        rw [hx'.valueKind_eq, hx.valueKind_eq]
        rw [h.delimiter_eq, hx.delimiter_eq]
        decide
      · -- What is gathered is not gathered again.
        cases hx.items_eq.symm.trans hx'.none

theorem isSome_items (hx : (t.get x).items.isSome) : (t'.get x).items.isSome := by
  rcases h.outcome x with hkept | hgathered
  · rw [hkept.items_eq, hx]
  · rw [hgathered.none] at hx
    cases hx

end

end Settles

end PairTree

namespace Builder

open PairTree

variable {root : PairId} {t t' : PairTree} {id x : PairId} {modules : List PairId}

theorem toValuePlace_toValuePlace (pair : Pair) : toValuePlace (toValuePlace pair) = toValuePlace pair := by
  unfold toValuePlace
  cases hkind : pair.kind <;> simp [hkind]

/-- A part that is taken away and given back differs by its place alone. -/
theorem toValuePlace_reattached {pair : Pair} (h : pair.parent = some id) (parent : Option PairId) :
    { toValuePlace { pair with parent } with parent := some id } = toValuePlace pair := by
  obtain ⟨⟩ := pair
  cases h
  unfold toValuePlace
  dsimp only
  split <;> rfl

section

variable (hwf : t.WellFormed)

include hwf

theorem get_gatherItems (hid : id < t.size) (x : PairId) : (gatherItems t id).get x =
      if x = id then
        { t.get id with
          children := (t.children id).filter fun c => (t.kind c).isComment
          items := some (t.contentChildren id)
          valueKind := .concatenation }
      else if x ∈ t.contentChildren id then toValuePlace (t.get x)
      else t.get x := by
  have hchild : ∀ c ∈ t.children id, (c < t.size ∧ c ≠ id) ∧ (t.get c).parent = some id := fun c hc =>
    ⟨hwf.child_lt_ne hc, hwf.mem_held_iff.mp (mem_append_left _ hc)⟩
  obtain ⟨comments, hcomments⟩ : ∃ l, l = (t.children id).filter fun c => (t.kind c).isComment := ⟨_, rfl⟩
  obtain ⟨items, hitems⟩ : ∃ l, l = t.contentChildren id := ⟨_, rfl⟩
  have hcommentsSub : comments ⊆ t.children id := hcomments ▸ filter_subset_self _
  have hitemsSub : items ⊆ t.children id := hitems ▸ filter_subset_self _
  have hapart : ∀ c ∈ items, c ∉ comments := by
    intro c hc hcomment
    rw [hitems, contentChildren, mem_filter] at hc
    rw [hcomments, mem_filter] at hcomment
    simp [hcomment.2] at hc
  have hselfItems : id ∉ items := fun hmem => (hchild id (hitemsSub hmem)).1.2 rfl
  -- The trees on the way, each with what it holds in terms of the one before.
  obtain ⟨t₁, ht₁⟩ : ∃ t₁, t₁ = (t.takeChildren id).2 := ⟨_, rfl⟩
  have hsize₁ : t₁.size = t.size := by rw [ht₁, size_takeChildren]
  have hget₁ := get_takeChildren hid fun c hc => (hchild c hc).1
  rw [← ht₁] at hget₁
  have hpartition : ((t.children id).partition fun c => (t₁.kind c).isComment) = (comments, items) := by
    have hkind : ∀ c ∈ t.children id, (t₁.kind c).isComment = (t.kind c).isComment := by
      intro c hc
      rw [kind, hget₁, if_neg (hchild c hc).1.2, if_pos hc, kind]
    rw [partition_eq_filter_filter, hcomments, hitems, contentChildren, filter_congr hkind]
    congr 1
    exact filter_congr fun c hc => congrArg (!·) (hkind c hc)
  obtain ⟨t₂, ht₂⟩ : ∃ t₂, t₂ = items.foldl (fun tree item => tree.modify item toValuePlace) t₁ := ⟨_, rfl⟩
  have hsize₂ : t₂.size = t.size := by rw [ht₂, size_foldl_modify, hsize₁]
  have hget₂ := get_foldl_modify toValuePlace_toValuePlace t₁ items
  rw [← ht₂, hsize₁] at hget₂
  obtain ⟨t₃, ht₃⟩ : ∃ t₃, t₃ = t₂.adoptChildren id comments := ⟨_, rfl⟩
  have hsize₃ : t₃.size = t.size := by rw [ht₃, size_adoptChildren, hsize₂]
  have hget₃ := get_adoptChildren (t := t₂) (hsize₂ ▸ hid) fun c hc =>
    ⟨hsize₂ ▸ (hchild c (hcommentsSub hc)).1.1, (hchild c (hcommentsSub hc)).1.2⟩
  rw [← ht₃] at hget₃
  have htree : gatherItems t id = (t₃.setItems id items).modify id fun pair =>
      { pair with valueKind := .concatenation } := by
    have hfst : (t.takeChildren id).1 = t.children id := rfl
    simp only [gatherItems]
    rw [← ht₁, hfst, hpartition, ht₃, ht₂]
  rw [htree, setItems, modify_modify]
  by_cases hx : x = id
  · subst hx
    have hself : x ∉ comments := fun hmem => (hchild x (hcommentsSub hmem)).1.2 rfl
    rw [if_pos rfl, get_modify_self, get_setParents, if_neg fun h => hselfItems h.1, hget₃, if_pos rfl, children, hget₂,
      if_neg fun h => hselfItems h.1, hget₁, if_pos rfl, ← hcomments, ← hitems]
    · rfl
    · rw [size_setParents, hsize₃]
      exact hid
  · rw [if_neg hx, get_modify_of_ne hx, get_setParents, hsize₃, hget₃, if_neg hx, ← hitems]
    by_cases hitem : x ∈ items
    · obtain ⟨⟨hlt, -⟩, hparent⟩ := hchild x (hitemsSub hitem)
      rw [if_pos ⟨hitem, hlt⟩, if_neg (hapart x hitem), hget₂, if_pos ⟨hitem, hlt⟩, hget₁, if_neg hx,
        if_pos (hitemsSub hitem), if_pos hitem]
      exact toValuePlace_reattached hparent none
    · rw [if_neg fun h => hitem h.1, if_neg hitem]
      by_cases hcomment : x ∈ comments
      · rw [if_pos hcomment, hget₂, if_neg fun h => hitem h.1, hget₁, if_neg hx,
          if_pos (hcommentsSub hcomment), ← (hchild x (hcommentsSub hcomment)).2]
      · rw [if_neg hcomment, hget₂, if_neg fun h => hitem h.1, hget₁, if_neg hx, if_neg]
        intro hmem
        -- A child is a comment or a part of the value.
        cases hkind : (t.kind x).isComment with
        | true => exact hcomment (hcomments ▸ mem_filter.mpr ⟨hmem, hkind⟩)
        | false =>
          refine hitem (hitems ▸ mem_filter.mpr ⟨hmem, ?_⟩)
          rw [hkind]
          rfl

theorem gatherItems_settles (happart : t.Apart root) (hroot : root ≤ id)
    (hdelimiter : (t.get id).delimiter = .colonEqual) (hitems : (t.get id).items = none) :
    Settles root t (gatherItems t id) := by
  have hid : id < t.size := by
    apply lt_size_of_delimiter
    rw [hdelimiter]
    decide
  have hget := get_gatherItems hwf hid
  have hplace : ∀ pair, (toValuePlace pair).children = pair.children ∧ (toValuePlace pair).items = pair.items ∧
      (toValuePlace pair).valueKind = pair.valueKind ∧ (toValuePlace pair).told = pair.told := by
    intro pair
    unfold toValuePlace
    split
    · rename_i hkind
      simp only [Pair.told, hkind, Kind.unplaced, and_self]
    · exact ⟨rfl, rfl, rfl, rfl⟩
  refine ⟨?_, fun x hx => ?_, parent?_gatherItems hwf id, fun x => ?_, fun x => ?_⟩
  · simp only [gatherItems, setItems, size_modify, size_setParents, size_adoptChildren, size_foldl_modify,
      size_takeChildren]
  · have hne := (hx.trans_le hroot).ne
    rw [hget, if_neg hne, if_neg]
    intro hmem
    have hparent := hwf.mem_held_iff.mp (mem_append_left _ (mem_of_mem_filter hmem))
    exact Nat.not_lt.mpr hroot ((happart x id hparent).mp hx)
  · rw [hget]
    split
    · rename_i hx
      rw [hx]
      rfl
    · split
      · rw [(hplace _).2.2.2]
      · rfl
  · by_cases hx : x = id
    · subst hx
      refine .inr ⟨hdelimiter, hitems, ?_, ?_, ?_⟩
      · rw [children, hget, if_pos rfl]
      · rw [hget, if_pos rfl]
      · rw [hget, if_pos rfl]
    · refine .inl ?_
      by_cases hmem : x ∈ t.contentChildren id
      · have hsame := hget x
        rw [if_neg hx, if_pos hmem] at hsame
        obtain ⟨hchildren, hitems, hkind, -⟩ := hplace (t.get x)
        refine ⟨?_, ?_, fun _ => ?_⟩
        · rw [children, hsame, hchildren, children]
        · rw [hsame, hitems]
        · rw [hsame, hkind]
      · refine .of_get_eq ?_
        rw [hget, if_neg hx, if_neg hmem]

theorem finishPair_settles (happart : t.Apart root) (hroot : root ≤ id) : Settles root t (finishPair t id) := by
  refine finishPair_cases id (fun _ => gatherItems_settles hwf happart hroot) (fun hnone _ => ?_) (.refl root t)
  have hkeep : ∀ {α : Type} (g : Pair → α), (∀ pair valueKind, g { pair with valueKind } = g pair) →
      ∀ x, g ((t.modify id fun pair => { pair with valueKind := .object }).get x) = g (t.get x) :=
    fun g hg x => modify_eq_of_keeps g t id x fun pair => hg pair _
  refine ⟨size_modify .., fun x hx => ?_, hkeep Pair.parent fun _ _ => rfl,
    hkeep (fun pair => pair.told.heading) fun _ _ => rfl, fun x => .inl ⟨?_, ?_, fun hne => ?_⟩⟩
  · exact get_modify_of_ne (hx.trans_le hroot).ne _
  · exact hkeep Pair.children (fun _ _ => rfl) x
  · exact hkeep Pair.items (fun _ _ => rfl) x
  · rw [get_modify_of_ne]
    rintro rfl
    exact hne hnone

theorem isSome_items_finishPair (hdelimiter : (t.get id).delimiter = .colonEqual) :
    ((finishPair t id).get id).items.isSome := by
  have hid : id < t.size := by
    apply lt_size_of_delimiter
    rw [hdelimiter]
    decide
  simp only [finishPair]
  split
  · rw [get_gatherItems hwf hid, if_pos rfl]
    rfl
  · rename_i hcond
    have hsome : (t.get id).items.isSome := by
      cases hitems : (t.get id).items with
      | none => simp [hdelimiter, hitems] at hcond
      | some items => rfl
    split
    · rw [get_modify_self hid]
      exact hsome
    · exact hsome

end

theorem foldl_finishPair_settles {ids : List PairId} (h : t.Parsed modules) (happart : t.Apart root)
    (hids : ∀ x ∈ ids, root ≤ x) :
    Settles root t (ids.foldl finishPair t) ∧ ∀ x ∈ ids, (t.get x).delimiter = .colonEqual →
      ((ids.foldl finishPair t).get x).items.isSome := by
  induction ids generalizing t with
  | nil => exact ⟨.refl root t, fun _ hx => absurd hx not_mem_nil⟩
  | cons id ids ih =>
    have hparsed := finishPair_parsed h id
    have hstep := finishPair_settles h.wellFormed happart (hids id mem_cons_self)
    obtain ⟨hrest, hsome⟩ := ih hparsed
      (happart.of_before h.wellFormed hparsed.wellFormed hstep.before) fun x hx => hids x (mem_cons_of_mem _ hx)
    refine ⟨hstep.trans hrest, fun x hx hdelimiter => ?_⟩
    rcases mem_cons.mp hx with rfl | hx
    · exact hrest.isSome_items (isSome_items_finishPair h.wellFormed hdelimiter)
    · exact hsome x hx ((hstep.delimiter_eq x).trans hdelimiter)

theorem finish_settles {site : Site} {b : Builder} (h : b.tree.Parsed modules)
    (hmodule : site.root ∈ modules) (happart : b.tree.Apart site.root) :
    Settles site.root b.tree (b.finish site).tree ∧ ∀ x, b.tree.HangsFrom site.root x →
      (b.tree.get x).delimiter = .colonEqual → ((b.finish site).tree.get x).items.isSome := by
  have hmem := fun x => h.wellFormed.mem_preorder_iff (x := x) (h.module_lt_size hmodule)
  have hle : ∀ x ∈ b.tree.preorder site.root, site.root ≤ x := fun x hx =>
    happart.le_of_hangsFrom h.wellFormed ((hmem x).mp hx) le_rfl
  obtain ⟨hsettles, hsome⟩ := foldl_finishPair_settles h happart hle
  exact ⟨hsettles, fun x hx => hsome x ((hmem x).mpr hx)⟩

end Builder

end PairMarkup
