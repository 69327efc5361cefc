import PairMarkup.Proofs.Construction.Growth

namespace PairMarkup

open List

/-- A pair that takes in others which have no place of their own. -/
structure Pair.IsHolder (stop : Position) (gs rest : List Glyph) (pair : Pair) : Prop where
  value_eq : pair.value = none
  items_eq : pair.items = none
  delimiter_eq : pair.delimiter = .none ∨ pair.delimiter = .colon
  span : pair.span.LiesIn stop gs rest
  nameSpan : pair.nameSpan.LiesIn stop gs rest

theorem Pair.IsHolder.of_alike {stop : Position} {gs rest : List Glyph} {a b : Pair}
    (h : b.IsHolder stop gs rest) (halike : a.Alike b) : a.IsHolder stop gs rest where
  value_eq := halike.value_eq.trans h.value_eq
  items_eq := halike.items_eq.trans h.items_eq
  delimiter_eq := by
    rw [halike.delimiter_eq]
    exact h.delimiter_eq
  span := by
    rw [halike.span_eq]
    exact h.span
  nameSpan := by
    rw [halike.nameSpan_eq]
    exact h.nameSpan

namespace PairTree

variable {stop : Position} {root : PairId} {gs mid rest : List Glyph} {t t' t'' : PairTree} {parent child : PairId}
  (Fits : Pair → Prop) {pair : Pair}

/-- Pairs before the module have nothing to do with those from it on. -/
def Apart (root : PairId) (t : PairTree) : Prop := ∀ c p, t.parent? c = some p → (c < root ↔ p < root)

/-- That lasts as long as nothing before the module changes. -/
theorem Apart.of_before (h : t.Apart root) (hwf : t.WellFormed) (hwf' : t'.WellFormed)
    (hbefore : ∀ x, x < root → t'.get x = t.get x) : t'.Apart root := by
  intro c p hparent
  constructor
  · intro hc
    rw [parent?, hbefore c hc] at hparent
    exact (h c p hparent).mp hc
  · intro hp
    have hheld := hwf'.mem_held_iff.mpr hparent
    rw [hbefore p hp] at hheld
    exact (h c p (hwf.mem_held_iff.mp hheld)).mpr hp

theorem Apart.le_parent (h : t.Apart root) {c p : PairId} (hparent : t.parent? c = some p)
    (hc : root ≤ c) : root ≤ p :=
  Nat.le_of_not_lt fun hlt => not_lt.mpr hc ((h c p hparent).mpr hlt)

theorem Apart.le_of_mem_ancestors (h : t.Apart root) (hwf : t.WellFormed) {x a : PairId}
    (hx : root ≤ x) (ha : a ∈ t.ancestors x) : root ≤ a := by
  induction x using hwf.induction_up with
  | root x hnone => simp [ancestors_eq_nil hnone] at ha
  | child x p hp ih =>
    have hle := h.le_parent hp hx
    rw [hwf.ancestors_eq_cons hp] at ha
    rcases mem_cons.mp ha with rfl | ha
    · exact hle
    · exact ih hle ha

/-- Pairs are hung below others: each gets those that `more` says. New pairs are as `Fits` says. -/
structure Hangs (root : PairId) (Fits : Pair → Prop) (more : PairId → List PairId) (t t' : PairTree) :
    Prop where
  size_le : t.size ≤ t'.size
  before : ∀ x, x < root → t'.get x = t.get x
  alike : ∀ x, x < t.size → (t'.get x).Alike (t.get x)
  children_eq : ∀ x, t'.children x = t.children x ++ more x
  fits : ∀ x, t.size ≤ x → x < t'.size → Fits (t'.get x)
  welcome : ∀ x, x < t.size → ∀ c ∈ more x, (t'.kind c).isComment = true ∨ t.acceptsChildren x = true

namespace Hangs

variable {Fits : Pair → Prop} {more more' : PairId → List PairId}

theorem refl (root : PairId) (Fits : Pair → Prop) (t : PairTree) : Hangs root Fits (fun _ => []) t t where
  size_le := le_rfl
  before _ _ := rfl
  alike _ _ := .refl _
  children_eq _ := (append_nil _).symm
  fits _ hx hlt := absurd hlt (not_lt.mpr hx)
  welcome _ _ _ hc := absurd hc not_mem_nil

section

variable (h : Hangs root Fits more t t')

include h

theorem trans (h' : Hangs root Fits more' t' t'')
    (hFits : ∀ a b : Pair, a.Alike b → Fits b → Fits a) (hmore : ∀ x, ∀ c ∈ more x, c < t'.size) :
    Hangs root Fits (fun x => more x ++ more' x) t t'' where
  size_le := h.size_le.trans h'.size_le
  before x hx := (h'.before x hx).trans (h.before x hx)
  alike x hx := (h'.alike x (hx.trans_le h.size_le)).trans (h.alike x hx)
  children_eq x := by rw [h'.children_eq, h.children_eq, append_assoc]
  fits x hx hlt := by
    rcases lt_or_ge x t'.size with hold | hnew
    · exact hFits _ _ (h'.alike x hold) (h.fits x hx hold)
    · exact h'.fits x hnew hlt
  welcome x hx c hc := by
    rcases mem_append.mp hc with hc | hc
    · rw [kind, (h'.alike c (hmore x c hc)).isComment_eq]
      exact h.welcome x hx c hc
    · rw [← acceptsChildren_eq_of_alike (h.alike x hx)]
      exact h'.welcome x (hx.trans_le h.size_le) c hc

theorem congr (hmore : ∀ x, more' x = more x) : Hangs root Fits more' t t' := by
  rw [funext hmore]
  exact h

theorem adds (hnew : ∀ x, ∀ c ∈ more x, t.size ≤ c ∧ c < t'.size)
    (horder : ∀ x, SpansInOrder stop t' gs (more x) rest)
    (hmade : ∀ x, t.size ≤ x → x < t'.size → Made stop gs rest t' x) :
    Adds stop root gs rest t t' where
  size_le := h.size_le
  before := h.before
  alike := h.alike
  gains x := ⟨more x, h.children_eq x, hnew x, horder x, h.welcome x⟩
  made := hmade

end

end Hangs

section

variable (h : t.append parent child = .ok t')

include h

theorem append_welcome : (t.kind child).isComment ∨ t.acceptsChildren parent := by
  simp only [append] at h
  split at h
  · cases h
  · rename_i hcond
    rw [Bool.and_eq_true, Bool.not_eq_true', Bool.not_eq_true'] at hcond
    cases hcomment : (t.get child).kind.isComment with
    | true => exact .inl hcomment
    | false =>
      cases haccepts : t.acceptsChildren parent with
      | true => exact .inr rfl
      | false => exact absurd ⟨hcomment, haccepts⟩ hcond

theorem alike_append (x : PairId) : (t'.get x).Alike (t.get x) :=
  ⟨append_eq_of_keeps Pair.told h x fun _ _ _ _ => rfl⟩

theorem append_hangs (hparent : parent < t.size) (hroot : root ≤ parent) (hchild : root ≤ child) :
    Hangs root Fits (fun x => if x = parent then [child] else []) t t' where
  size_le := (size_append h).symm.le
  before x hx := by
    obtain ⟨isChoice, rfl⟩ := append_eq_ok h
    rw [get_modify_of_ne (hx.trans_le hroot).ne, get_modify_of_ne (hx.trans_le hchild).ne]
  alike x _ := alike_append h x
  children_eq x := by
    rw [children_append h hparent]
    split
    · rfl
    · rw [append_nil]
  fits x hx hlt := absurd (size_append h ▸ hlt) (not_lt.mpr hx)
  welcome x _ c hc := by
    split at hc
    · rename_i hx
      rw [mem_singleton.mp hc, hx, kind, (alike_append h child).isComment_eq]
      exact append_welcome h
    · cases hc

end

theorem add_hangs {Fits : Pair → Prop} (hchildren : pair.children = []) (hpair : Fits pair)
    (hroot : root ≤ t.size) : Hangs root Fits (fun _ => []) t (t.add pair).2 where
  size_le := (lt_size_add t pair).le
  before x hx := get_add_of_ne t pair (hx.trans_le hroot).ne
  alike x hx := by
    rw [get_add_of_ne t pair hx.ne]
    exact .refl _
  children_eq x := by
    rw [append_nil, children, children, get_add]
    split
    · rename_i hx
      rw [hchildren, hx, get_eq_default le_rfl]
      rfl
    · rfl
  fits x hx hlt := by
    rw [size_add] at hlt
    rw [le_antisymm (Nat.le_of_lt_succ hlt) hx, get_add_self]
    exact hpair
  welcome x _ c hc := absurd hc not_mem_nil

theorem add_append_hangs {Fits : Pair → Prop} (hFits : ∀ a b : Pair, a.Alike b → Fits b → Fits a)
    (hchildren : pair.children = []) (hpair : Fits pair) (hroot : root ≤ t.size)
    (h : (t.add pair).2.append parent child = .ok t') (hlt : parent ≤ t.size)
    (hparent : root ≤ parent) (hchild : root ≤ child) :
    Hangs root Fits (fun x => if x = parent then [child] else []) t t' := by
  have happend := append_hangs Fits h (hlt.trans_lt (lt_size_add t pair)) hparent hchild
  have hhangs := (add_hangs hchildren hpair hroot).trans happend hFits fun _ _ hc =>
    absurd hc not_mem_nil
  exact hhangs

theorem registerChoice_hangs (happart : t.Apart root) (hwf : t.WellFormed) {id : PairId} (hid : root ≤ id) :
    Hangs root Fits (fun _ => []) t (Builder.registerChoice t id) := by
  unfold Builder.registerChoice
  split
  · exact .refl root Fits t
  · rename_i document hdocument
    have hle : root ≤ document := happart.le_of_mem_ancestors hwf hid (mem_of_find?_eq_some hdocument)
    have htold : ∀ f (pair : Pair), (pair.mapChoices f).told = pair.told := by
      intro f pair
      unfold Pair.mapChoices
      split
      · rename_i hkind
        simp only [Pair.told, hkind, Kind.unplaced]
      · rfl
    refine ⟨(size_modify ..).symm.le, fun x hx => ?_, fun x _ => ⟨?_⟩, fun x => ?_,
      fun x hx hlt => ?_, fun x _ c hc => absurd hc not_mem_nil⟩
    · exact get_modify_of_ne (hx.trans_le hle).ne _
    · exact modify_eq_of_keeps Pair.told t document x (htold _)
    · rw [append_nil]
      exact modify_eq_of_keeps Pair.children t document x fun pair =>
        Pair.children_eq_of_core (Pair.mapChoices_core _ pair)
    · rw [size_modify] at hlt
      exact absurd hlt (not_lt.mpr hx)

end PairTree

namespace Builder

open PairTree

variable {stop : Position} {modules : List PairId} {site : Site} {gs mid rest : List Glyph}
  {b b' b'' : Builder} {parent child : PairId} {position : Position}

@[simp] theorem tree_reportAll (b : Builder) (site : Site) (notes : List Note) :
    (b.reportAll site notes).tree = b.tree := by
  induction notes generalizing b with
  | nil => rfl
  | cons note notes ih => exact ih (b.report site note)

theorem addComment_adds {parent : PairId} (hparent : parent < b.tree.size) (hroot : site.root ≤ parent)
    {comment : Comment} (hcomment : comment.span.Fills stop gs rest)
    (hok : b.addComment site parent comment = .ok b') : Adds stop site.root gs rest b.tree b'.tree := by
  simp only [addComment] at hok
  obtain ⟨tree, happend, rfl⟩ := append_eq_ok hok
  simp only [add, tree_reportAll] at happend ⊢
  generalize hpair : site.commentPair comment = pair at happend
  have hle := hroot.trans hparent.le
  have hclosed : ∀ a b : Pair, a.Alike b → b.Alike pair → a.Alike pair := fun _ _ hab hb => hab.trans hb
  have hhangs := add_append_hangs hclosed (by rw [← hpair]; rfl) (.refl pair) hle happend hparent.le hroot hle
  have hsize : tree.size = b.tree.size + 1 := (size_append happend).trans (size_add ..)
  have hself : ∀ x, b.tree.size ≤ x → x < tree.size → (tree.get x).Alike pair := hhangs.fits
  have hnew : b.tree.size < tree.size := by omega
  refine hhangs.adds (fun x c hc => ?_) (fun x => ?_) fun x hx hlt => ?_
  · split at hc
    · rw [mem_singleton.mp hc]
      exact ⟨le_rfl, hnew⟩
    · cases hc
  · split
    · refine .singleton ?_
      change (tree.get b.tree.size).span.Fills stop gs rest
      rw [(hself _ le_rfl hnew).span_eq, ← hpair]
      exact hcomment
    · exact hcomment.suffix
  · have hx := hself x hx hlt
    subst hpair
    refine ⟨?_, ?_, ?_, ⟨.inl ?_, fun hblock => ?_⟩⟩
    · rw [hx.span_eq]
      exact hcomment.liesIn
    · rw [hx.nameSpan_eq]
      exact hcomment.liesIn
    · rw [hx.items_eq]
      exact hcomment.suffix
    · rw [kind, hx.isComment_eq]
      rfl
    · rw [hx.delimiter_eq] at hblock
      cases hblock

variable (h : b.tree.Parsed modules)

include h

/-- Where a pair goes that may not stand in the module: the last implicit document or a new one, which
    is put behind everything else in the module. -/
theorem redirect_hangs (hmodule : site.root ∈ modules)
    (happart : b.tree.Apart site.root) {parent child target : PairId} (hroot : site.root ≤ parent)
    (hspan : (b.tree.get child).span.LiesIn stop gs rest)
    (hok : b.redirect site parent child = .ok (target, b')) :
    (b' = b ∧ site.root ≤ target) ∨ target = b.tree.size ∧ b'.tree.size = b.tree.size + 1 ∧
        (b'.tree.get target).span = (b.tree.get child).span ∧
        Hangs site.root (·.IsHolder stop gs rest) (fun x => if x = site.root then [target] else [])
          b.tree b'.tree := by
  simp only [redirect] at hok
  split at hok
  · unfold implicitDocument at hok
    split at hok
    · rename_i hfound
      cases hok
      have hmem : target ∈ (b.tree.get site.root).held :=
        mem_append_left _ (mem_reverse.mp (mem_of_find?_eq_some hfound))
      have hup := h.wellFormed.mem_held_iff.mp hmem
      refine .inl ⟨rfl, Nat.le_of_not_lt fun hlt => ?_⟩
      exact lt_irrefl _ ((happart target site.root hup).mp hlt)
    · rw [bind_eq_ok] at hok
      obtain ⟨c, hc, hok⟩ := hok
      cases hok
      obtain ⟨tree, happend, rfl⟩ := append_eq_ok hc
      have hlt := h.module_lt_size hmodule
      refine .inr ⟨rfl, (size_append happend).trans (size_add ..), ?_, ?_⟩
      · refine (alike_append happend b.tree.size).span_eq.trans ?_
        change ((b.tree.add _).2.get b.tree.size).span = _
        rw [get_add_self]
        rfl
      · refine add_append_hangs (fun _ _ hab hb => hb.of_alike hab) ?_ ?_ hlt.le happend hlt.le le_rfl hlt.le
        · rfl
        · exact ⟨rfl, rfl, .inr rfl, hspan, hspan⟩
  · cases hok
    exact .inl ⟨rfl, hroot⟩

/-- A pair is put below the one that it should go to, or else below a new one outside of the tree. -/
theorem place_hangs (happart : b.tree.Apart site.root) (hparent : parent < b.tree.size)
    (hroot : site.root ≤ parent) (hchild : b.tree.Loose child) (hle : site.root ≤ child)
    (hne : parent ≠ child) (hposition : Span.LiesIn stop gs rest (.point position))
    (hok : b.place site parent child position = .ok b') :
    ∃ holder, (holder = parent ∨ holder = b.tree.size) ∧
      Hangs site.root (·.IsHolder stop gs rest) (fun x => if x = holder then [child] else []) b.tree b'.tree := by
  simp only [place] at hok
  split at hok
  · rename_i tree happend
    cases hok
    have hleads := append_leads h hparent hchild hne happend
    have hhangs := append_hangs (·.IsHolder stop gs rest) happend hparent hroot hle
    refine ⟨parent, .inl rfl, ?_⟩
    dsimp only
    split
    · have hregister := registerChoice_hangs (·.IsHolder stop gs rest)
        (happart.of_before h.wellFormed hleads.parsed.wellFormed hhangs.before) hleads.parsed.wellFormed hle
      refine (hhangs.trans hregister (fun _ _ hab hb => hb.of_alike hab) fun x c hc => ?_).congr fun x =>
        (append_nil _).symm
      rw [size_append happend]
      split at hc
      · exact mem_singleton.mp hc ▸ hchild.lt_size
      · cases hc
    · exact hhangs
  · cases hok
  · obtain ⟨tree, happend, rfl⟩ := append_eq_ok hok
    refine ⟨b.tree.size, .inr rfl, ?_⟩
    have hsize := hle.trans hchild.lt_size.le
    refine add_append_hangs (fun _ _ hab hb => hb.of_alike hab) ?_ ?_ hsize happend le_rfl hsize hle
    · rfl
    · exact ⟨rfl, rfl, .inl rfl, hposition, hposition⟩

/-- No pair gets more than one: the pair that is put somewhere, or the implicit document, which takes the
    place in the module that the pair asked for. -/
theorem attach_hangs (hmodule : site.root ∈ modules) (happart : b.tree.Apart site.root)
    (hparent : parent < b.tree.size) (hroot : site.root ≤ parent) (hchild : b.tree.Loose child)
    (hle : site.root ≤ child) (hne : parent ≠ child) (hspan : (b.tree.get child).span.LiesIn stop gs rest)
    (hposition : Span.LiesIn stop gs rest (.point position)) (hok : b.attach site parent child position = .ok b') :
    ∃ more, Hangs site.root (·.IsHolder stop gs rest) more b.tree b'.tree ∧ more child = [] ∧
      ∀ x, more x = [] ∨ ∃ c, more x = [c] ∧ (c = child ∨ b.tree.size ≤ c) ∧ c < b'.tree.size ∧
        (b'.tree.get c).span = (b.tree.get child).span := by
  rw [attach, bind_eq_ok] at hok
  obtain ⟨⟨target, mid⟩, htarget, hok⟩ := hok
  obtain ⟨hleads, hlt, hloose, htargetNe⟩ := redirect_leads h hmodule hparent hchild hne htarget
  have hchildRoot : child ≠ site.root := by
    rintro rfl
    have hkind := hchild.not_module
    rw [h.module_kind _ hmodule] at hkind
    cases hkind
  rcases redirect_hangs h hmodule happart hroot hspan htarget with
    ⟨rfl, htargetRoot⟩ | ⟨rfl, hsize, htargetSpan, hhangs⟩
  · obtain ⟨holder, hholder, hplace⟩ := place_hangs h happart hlt htargetRoot hchild hle htargetNe hposition hok
    refine ⟨_, hplace, if_neg ?_, fun x => ?_⟩
    · rcases hholder with rfl | rfl
      · exact htargetNe.symm
      · exact hchild.lt_size.ne
    · by_cases hx : x = holder
      · refine .inr ⟨child, if_pos hx, .inl rfl, hchild.lt_size.trans_le hplace.size_le, ?_⟩
        exact (hplace.alike child hchild.lt_size).span_eq
      · exact .inl (if_neg hx)
  · have hmidApart := happart.of_before h.wellFormed hleads.parsed.wellFormed hhangs.before
    have hrootLt := h.module_lt_size hmodule
    obtain ⟨holder, hholder, hplace⟩ :=
      place_hangs hleads.parsed hmidApart hlt hrootLt.le hloose hle htargetNe hposition hok
    have hholderLe : b.tree.size ≤ holder := by
      rcases hholder with rfl | rfl
      · exact le_rfl
      · exact hleads.size_le
    have hmore : ∀ x, ∀ c ∈ (if x = site.root then [b.tree.size] else []), c < mid.tree.size := by
      intro x c hc
      split at hc
      · rw [mem_singleton.mp hc, hsize]
        exact Nat.lt_succ_self _
      · cases hc
    refine ⟨_, hhangs.trans hplace (fun _ _ hab hb => hb.of_alike hab) hmore, ?_, fun x => ?_⟩
    · rw [if_neg hchildRoot, if_neg (hchild.lt_size.trans_le hholderLe).ne]
      rfl
    · by_cases hx : x = site.root
      · rw [if_pos hx, if_neg fun hxHolder => ?_]
        · refine .inr ⟨_, rfl, .inr le_rfl, hlt.trans_le hplace.size_le, ?_⟩
          exact (hplace.alike _ hlt).span_eq.trans htargetSpan
        · rw [← hx, hxHolder] at hrootLt
          exact lt_irrefl _ (hrootLt.trans_le hholderLe)
      · rw [if_neg hx, nil_append]
        by_cases hxHolder : x = holder
        · refine .inr ⟨child, if_pos hxHolder, .inl rfl, hloose.lt_size.trans_le hplace.size_le, ?_⟩
          exact (hplace.alike child hloose.lt_size).span_eq.trans (hhangs.alike child hchild.lt_size).span_eq
        · exact .inl (if_neg hxHolder)

end Builder

end PairMarkup
