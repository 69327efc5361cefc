import PairMarkup.Proofs.Reading
import PairMarkup.Proofs.Reporting
import PairMarkup.Proofs.Tree.Parsed
import PairMarkup.Proofs.Tree.Verbatim

namespace PairMarkup

open List Kind Option Builder Line

variable {ε α β : Type} (set : ModuleSet) (format : Format) (file : String) (fileIndex : Nat) (tree : PairTree)
  (setting : Setting) (head : Head)

theorem bind_eq_ok {x : Except ε α} {f : α → Except ε β} {b : β} : x >>= f = .ok b ↔ ∃ a, x = .ok a ∧ f a = .ok b := by
  cases x with
  | error e => simp [bind, Except.bind]
  | ok a => simp [bind, Except.bind]

theorem foldlM_ok_induction {f : β → α → Except ε β} {P : β → Prop}
    {as : List α} (hstep : ∀ b, ∀ a ∈ as, ∀ b', P b → f b a = .ok b' → P b') {b b' : β} (hb : P b)
    (h : as.foldlM f b = .ok b') : P b' := by
  induction as generalizing b with
  | nil =>
    cases h
    exact hb
  | cons a as ih =>
    rw [foldlM_cons, bind_eq_ok] at h
    obtain ⟨next, hnext, hrest⟩ := h
    exact ih (fun b a ha => hstep b a (mem_cons_of_mem _ ha)) (hstep b a mem_cons_self next hb hnext) hrest

theorem interpret_fresh : (format.interpret tree setting head).1.isModule = false ∧
      (format.interpret tree setting head).1.Unresolved := by
  have hpercent : (percentKind tree setting).isModule = false ∧ (percentKind tree setting).Unresolved := by
    simp only [percentKind]
    split_ifs <;> first | exact ⟨rfl, rfl⟩ | exact ⟨rfl, trivial⟩
  have hshared : ∀ kind, sharedKind? tree setting head = some kind → kind.isModule = false ∧ kind.Unresolved := by
    intro kind h
    unfold sharedKind? at h
    split at h
    case h_5 =>
      cases h
      exact hpercent
    case h_6 =>
      split at h
      · cases h
        exact ⟨rfl, trivial⟩
      · cases h
    all_goals
      cases h
      try exact ⟨rfl, rfl⟩
    all_goals exact ⟨rfl, trivial⟩
  unfold Format.interpret
  split
  case h_1 h => exact hshared _ h
  case h_3 => split <;> exact ⟨rfl, trivial⟩
  all_goals exact ⟨rfl, trivial⟩

theorem makePair_fresh : (format.makePair file fileIndex tree setting head).Fresh := by
  obtain ⟨hmodule, hunresolved⟩ := interpret_fresh format tree setting head
  exact ⟨rfl, rfl, rfl, hmodule, hunresolved, rfl⟩

theorem makePair_isPart (owner : PairId) (found : Reference) :
    (format.makePair file fileIndex tree ⟨owner, true, false⟩ found.head).IsPart := by
  intro helement
  change (format.interpret tree ⟨owner, true, false⟩ found.head).1.isElement = true at helement
  obtain ⟨_ | _, name, span⟩ := found <;> cases helement

theorem PairTree.Loose.append {t t' : PairTree} {parent child x : PairId} (hx : t.Loose x)
    (h : t.append parent child = .ok t') (hparent : x ≠ parent) (hchild : x ≠ child) : t'.Loose x := by
  obtain ⟨isChoice, rfl⟩ := append_eq_ok h
  have hget : ((t.modify child fun p => { p with parent := some parent, isChoice }).modify parent
      fun p => { p with children := p.children ++ [child] }).get x = t.get x := by
    rw [get_modify_of_ne hparent, get_modify_of_ne hchild]
  refine ⟨⟨?_, ?_, ?_⟩, ?_⟩
  · rw [size_modify, size_modify]
    exact hx.lt_size
  · rw [parent?, hget]
    exact hx.parent_eq
  · rw [hget]
    exact hx.held_eq
  · rw [kind, hget]
    exact hx.not_module

namespace Builder

open PairTree LineState

variable {t : PairTree} {parent child id owner : PairId} {pair : Pair} {state : LineState}

/-- From one tree in the making to a later one on the same line: it is still as
    reading makes it, and no pair is lost. -/
structure Grows (modules : List PairId) (b b' : Builder) : Prop where
  parsed : b'.tree.Parsed modules
  size_le : b.tree.size ≤ b'.tree.size
  blocks_eq : b'.blocks = b.blocks
  verbatim : b.tree.Verbatim → b'.tree.Verbatim

/-- The same without any change of what is said in a pair. -/
structure Leads (modules : List PairId) (b b' : Builder) : Prop extends Grows modules b b' where
  unplaced_eq : ∀ x, x < b.tree.size → (b'.tree.get x).unplaced = (b.tree.get x).unplaced

variable {modules : List PairId} {site : Site} {b b' b'' : Builder} {position : Position} {ids : List PairId}
  {block : PairId}

theorem orphan_fresh (site : Site) (position : Position) :
    (Pair.bare .element (.point position) site.file site.fileIndex).Fresh :=
  ⟨rfl, rfl, rfl, rfl, trivial, rfl⟩

theorem Grows.trans (h : Grows modules b b') (h' : Grows modules b' b'') : Grows modules b b'' where
  parsed := h'.parsed
  size_le := h.size_le.trans h'.size_le
  blocks_eq := h'.blocks_eq.trans h.blocks_eq
  verbatim := h'.verbatim ∘ h.verbatim

namespace Leads

theorem of_unplaced (h : b.tree.Parsed modules) (h' : b'.tree.Parsed modules)
    (hsize : b'.tree.size = b.tree.size) (hblocks : b'.blocks = b.blocks)
    (hsame : ∀ x, (b'.tree.get x).unplaced = (b.tree.get x).unplaced) : Leads modules b b' where
  parsed := h'
  size_le := hsize.symm.le
  blocks_eq := hblocks
  verbatim hverbatim := by
    refine hverbatim.extend h.wellFormed (fun x _ => hsame x) fun x hx => ?_
    rw [get_eq_default (hsize ▸ hx)]
    exact ⟨⟨rfl, fun _ => rfl⟩, rfl⟩
  unplaced_eq x _ := hsame x

theorem of_tree_eq (h : b.tree.Parsed modules) (htree : b'.tree = b.tree)
    (hblocks : b'.blocks = b.blocks) : Leads modules b b' :=
  of_unplaced h (htree ▸ h) (by rw [htree]) hblocks fun x => by rw [htree]

theorem refl (h : b.tree.Parsed modules) : Leads modules b b := of_tree_eq h rfl rfl

theorem trans (h : Leads modules b b') (h' : Leads modules b' b'') : Leads modules b b'' where
  toGrows := h.toGrows.trans h'.toGrows
  unplaced_eq x hx := (h'.unplaced_eq x (hx.trans_le h.size_le)).trans (h.unplaced_eq x hx)

theorem items_eq (h : Leads modules b b') {x : PairId} (hx : x < b.tree.size) :
    (b'.tree.get x).items = (b.tree.get x).items := Pair.items_eq_of_unplaced (h.unplaced_eq x hx)

end Leads

section

variable (h : b.tree.Parsed modules)

include h

theorem report_leads (site : Site) (note : Note) : Leads modules b (b.report site note) := .of_tree_eq h rfl rfl

theorem reportAll_leads (site : Site) (notes : List Note) : Leads modules b (b.reportAll site notes) := by
  induction notes generalizing b with
  | nil => exact .refl h
  | cons note notes ih => exact (report_leads h site note).trans (ih h)

theorem add_leads (hpair : pair.Fresh) : Leads modules b (b.add pair).2 where
  parsed := h.add hpair
  size_le := by
    change b.tree.size ≤ (b.tree.add pair).2.size
    rw [size_add]
    exact Nat.le_succ _
  unplaced_eq x hx := congrArg Pair.unplaced (get_add_of_ne b.tree pair hx.ne)
  blocks_eq := rfl
  verbatim hverbatim := by
    refine hverbatim.extend h.wellFormed (fun x hx => ?_) fun x hx => ?_
    · exact congrArg Pair.unplaced (get_add_of_ne b.tree pair hx.ne)
    · change ((b.tree.add pair).2.get x).Verbatim ∧ ((b.tree.add pair).2.get x).items = none
      rw [get_add]
      split
      · exact ⟨hpair.verbatim, hpair.items_eq⟩
      · rw [get_eq_default hx]
        exact ⟨⟨rfl, fun _ => rfl⟩, rfl⟩

theorem append_leads (hparent : parent < b.tree.size) (hchild : b.tree.Loose child)
    (hne : parent ≠ child) {tree : PairTree} (hok : b.tree.append parent child = .ok tree) :
    Leads modules b { b with tree } :=
  .of_unplaced h (h.append hparent hchild hne hok) (size_append hok) rfl fun x =>
    append_eq_of_keeps Pair.unplaced hok x fun _ _ _ _ => rfl

theorem modify_leads (id : PairId) {f : Pair → Pair} (hparent : ∀ pair, (f pair).parent = pair.parent)
    (hchildren : ∀ pair, (f pair).children = pair.children)
    (hunplaced : ∀ pair, (f pair).unplaced = pair.unplaced) : Leads modules b (b.modify id f) := by
  have hkind : ∀ pair, (f pair).kind.unplaced = pair.kind.unplaced := fun pair =>
    congrArg Pair.kind (hunplaced pair)
  refine .of_unplaced h ?_ (size_modify ..) rfl fun x =>
    modify_eq_of_keeps Pair.unplaced b.tree id x hunplaced
  refine h.modify id hparent (fun pair => ?_) (fun pair => ?_) fun pair hpair => ?_
  · rw [Pair.held, hchildren, Pair.items_eq_of_unplaced (hunplaced pair), Pair.held]
  · rw [← isModule_unplaced, hkind, isModule_unplaced]
  · rw [← unresolved_unplaced, hkind, unresolved_unplaced]
    exact hpair

end

theorem append_eq_ok (h : b.append parent child = .ok b') :
    ∃ tree, b.tree.append parent child = .ok tree ∧ b' = { b with tree } := by
  unfold append at h
  split at h
  case h_1 tree htree =>
    cases h
    exact ⟨tree, htree, rfl⟩
  case h_2 => cases h

section

variable (h : b.tree.Parsed modules)

include h

/-- A new pair may be put below any pair that was there before. Loose pairs other
    than that one stay loose. -/
theorem add_append_leads (hpair : pair.Fresh) (hparent : parent < b.tree.size)
    (hok : (b.add pair).2.append parent (b.add pair).1 = .ok b') :
    Leads modules b b' ∧ b.tree.size < b'.tree.size ∧ ∀ x, b.tree.Loose x → x ≠ parent → b'.tree.Loose x := by
  have hadd := add_leads h hpair
  have hnew := loose_add b.tree hpair
  obtain ⟨tree, htree, rfl⟩ := append_eq_ok hok
  refine ⟨hadd.trans (append_leads hadd.parsed (hparent.trans_le hadd.size_le) hnew
    hparent.ne htree), ?_, fun x hx hne => ?_⟩
  · rw [size_append htree]
    exact hnew.lt_size
  · exact (hx.add pair).append htree hne hx.lt_size.ne

theorem addComment_leads (hparent : parent < b.tree.size) {comment : Comment}
    (hok : b.addComment site parent comment = .ok b') : Leads modules b b' := by
  have hreport := reportAll_leads h site comment.notes
  refine hreport.trans (add_append_leads hreport.parsed ?_ (hparent.trans_le hreport.size_le) hok).1
  exact ⟨rfl, rfl, rfl, rfl, trivial, rfl⟩

/-- The implicit document is another pair than the one that needs it. -/
theorem implicitDocument_leads (hroot : site.root ∈ modules) {span : Span}
    (hchild : b.tree.Loose child) (hok : b.implicitDocument site span = .ok (id, b')) :
    Leads modules b b' ∧ id < b'.tree.size ∧ b'.tree.Loose child ∧ id ≠ child := by
  have hlt := h.module_lt_size hroot
  unfold implicitDocument at hok
  split at hok
  · rename_i hfound
    cases hok
    have hmem : id ∈ (b.tree.get site.root).held := mem_append_left _ (mem_reverse.mp (mem_of_find?_eq_some hfound))
    refine ⟨.refl h, h.wellFormed.held_lt_size hmem, hchild, ?_⟩
    rintro rfl
    rw [h.wellFormed.mem_held_iff, hchild.parent_eq] at hmem
    cases hmem
  · rw [bind_eq_ok] at hok
    obtain ⟨c, hc, hok⟩ := hok
    cases hok
    obtain ⟨hleads, hsize, hloose⟩ : Leads modules b b' ∧ b.tree.size < b'.tree.size ∧
        ∀ x, b.tree.Loose x → x ≠ site.root → b'.tree.Loose x := by
      refine add_append_leads h ?_ hlt hc
      exact ⟨rfl, rfl, rfl, rfl, trivial, rfl⟩
    refine ⟨hleads, hsize, hloose child hchild ?_, hchild.lt_size.ne'⟩
    rintro rfl
    have hmodule := hchild.not_module
    rw [h.module_kind _ hroot] at hmodule
    cases hmodule

theorem registerChoice_leads (id : PairId) : Leads modules b { b with tree := registerChoice b.tree id } := by
  unfold registerChoice
  split
  · exact .refl h
  · have hcore := Pair.mapChoices_core
    exact modify_leads h _ (fun pair => Pair.parent_eq_of_core (hcore _ pair))
      (fun pair => Pair.children_eq_of_core (hcore _ pair)) fun pair => Pair.mapChoices_unplaced _ pair

theorem redirect_leads (hroot : site.root ∈ modules) {target : PairId}
    (hparent : parent < b.tree.size) (hchild : b.tree.Loose child) (hne : parent ≠ child)
    (hok : b.redirect site parent child = .ok (target, b')) :
    Leads modules b b' ∧ target < b'.tree.size ∧ b'.tree.Loose child ∧ target ≠ child := by
  simp only [redirect] at hok
  split at hok
  · exact implicitDocument_leads h hroot hchild hok
  · cases hok
    exact ⟨.refl h, hparent, hchild, hne⟩

theorem place_leads (hparent : parent < b.tree.size)
    (hchild : b.tree.Loose child) (hne : parent ≠ child) (hok : b.place site parent child position = .ok b') :
    Leads modules b b' := by
  simp only [place] at hok
  split at hok
  · rename_i tree htree
    cases hok
    have happend := append_leads h hparent hchild hne htree
    refine happend.trans ?_
    split
    · exact registerChoice_leads happend.parsed child
    · exact .refl happend.parsed
  · cases hok
  · have hreport := report_leads h site (b.blockNotExpected parent (b.tree.get child).span)
    have horphan := orphan_fresh site position
    have hadd := add_leads hreport.parsed horphan
    obtain ⟨tree, htree, rfl⟩ := append_eq_ok hok
    refine (hreport.trans hadd).trans (append_leads hadd.parsed ?_ ?_ ?_ htree)
    · exact (loose_add b.tree horphan).lt_size
    · exact hchild.add _
    · exact hchild.lt_size.ne'

/-- Wherever a pair is attached, in the tree or outside of it, the tree stays as
    reading makes it. -/
theorem attach_leads (hroot : site.root ∈ modules)
    (hparent : parent < b.tree.size) (hchild : b.tree.Loose child) (hne : parent ≠ child)
    (hok : b.attach site parent child position = .ok b') : Leads modules b b' := by
  rw [attach, bind_eq_ok] at hok
  obtain ⟨⟨target, c⟩, htarget, hok⟩ := hok
  obtain ⟨hleads, hlt, hloose, hne⟩ := redirect_leads h hroot hparent hchild hne htarget
  exact hleads.trans (place_leads hleads.parsed hlt hloose hne hok)

end

/-- Pairs were made and none was attached: the new ones are loose, and so is what
    was before. -/
structure Makes (modules : List PairId) (b b' : Builder) (ids : List PairId) : Prop
    extends Leads modules b b' where
  keeps_loose : ∀ x, b.tree.Loose x → b'.tree.Loose x
  nodup : ids.Nodup
  loose : ∀ c ∈ ids, b'.tree.Loose c
  part : ∀ c ∈ ids, (b'.tree.get c).IsPart

theorem Makes.nil (h : b.tree.Parsed modules) : Makes modules b b [] where
  toLeads := .refl h
  keeps_loose _ hx := hx
  nodup := .nil
  loose _ hc := absurd hc not_mem_nil
  part _ hc := absurd hc not_mem_nil

theorem Makes.cons (h : b.tree.Parsed modules) (hpair : pair.Fresh) (hpart : pair.IsPart)
    (hrest : Makes modules (b.add pair).2 b' ids) (hnew : b.tree.size ∉ ids) :
    Makes modules b b' (b.tree.size :: ids) where
  toLeads := (add_leads h hpair).trans hrest.toLeads
  keeps_loose x hx := hrest.keeps_loose x (hx.add pair)
  nodup := nodup_cons.mpr ⟨hnew, hrest.nodup⟩
  loose c hc := by
    rcases mem_cons.mp hc with rfl | hc
    · exact hrest.keeps_loose _ (loose_add b.tree hpair)
    · exact hrest.loose c hc
  part c hc := by
    rcases mem_cons.mp hc with rfl | hc
    · refine .of_unplaced ?_ (hrest.unplaced_eq _ (loose_add b.tree hpair).lt_size)
      change ((b.tree.add pair).2.get b.tree.size).IsPart
      rw [get_add_self]
      exact hpart
    · exact hrest.part c hc

theorem size_add_snd (b : Builder) (pair : Pair) : (b.add pair).2.tree.size = b.tree.size + 1 := size_add ..

section

variable (h : b.tree.Parsed modules)

include h

theorem addReferences_makes (site : Site) (owner : PairId) (parts : List Segment) :
    Makes modules b (b.addReferences site owner parts).2 (b.addReferences site owner parts).1 ∧
      ∀ c ∈ (b.addReferences site owner parts).1, b.tree.size ≤ c := by
  induction parts generalizing b with
  | nil => exact ⟨.nil h, nofun⟩
  | cons part parts ih =>
    cases part with
    | text content span => exact ih h
    | reference found =>
      have hpair := makePair_fresh site.format site.file site.fileIndex b.tree ⟨owner, true, false⟩ found.head
      have hpart := makePair_isPart site.format site.file site.fileIndex b.tree owner found
      obtain ⟨hmakes, hnew⟩ := ih (add_leads h hpair).parsed
      rw [size_add_snd] at hnew
      refine ⟨.cons h hpair hpart hmakes fun hmem => ?_, fun c hc => ?_⟩
      · exact Nat.not_succ_le_self _ (hnew _ hmem)
      · rcases mem_cons.mp hc with rfl | hc
        · exact le_rfl
        · exact Nat.le_of_succ_le (hnew c hc)

theorem addTexts_makes (site : Site) (parts : List Segment) {references : List PairId} (hnodup : references.Nodup)
    (hloose : ∀ c ∈ references, b.tree.Loose c) (hpart : ∀ c ∈ references, (b.tree.get c).IsPart) :
    Makes modules b (b.addTexts site parts references).2 (b.addTexts site parts references).1 ∧
      ∀ c ∈ (b.addTexts site parts references).1, c ∈ references ∨ b.tree.size ≤ c := by
  induction parts generalizing b references with
  | nil => exact ⟨.nil h, nofun⟩
  | cons part parts ih =>
    cases part with
    | text content span =>
      have hpair : ({ Pair.bare .element span site.file site.fileIndex with
          value := some content
          valueKind := .doubleQuoted } : Pair).Fresh := ⟨rfl, rfl, rfl, rfl, trivial, rfl⟩
      have hadd := add_leads h hpair
      obtain ⟨hmakes, hnew⟩ := ih hadd.parsed hnodup (fun c hc => (hloose c hc).add _) fun c hc =>
        (hpart c hc).of_unplaced (hadd.unplaced_eq c (hloose c hc).lt_size)
      rw [size_add_snd] at hnew
      refine ⟨.cons h hpair (fun _ => ⟨rfl, rfl, rfl⟩) hmakes fun hmem => ?_, fun c hc => ?_⟩
      · rcases hnew _ hmem with hold | hle
        · exact lt_irrefl _ (hloose _ hold).lt_size
        · exact Nat.not_succ_le_self _ hle
      · rcases mem_cons.mp hc with rfl | hc
        · exact .inr le_rfl
        · exact (hnew c hc).imp_right Nat.le_of_succ_le
    | reference head =>
      cases references with
      | nil => exact ih h hnodup hloose hpart
      | cons reference references =>
        obtain ⟨hhead, htail⟩ := nodup_cons.mp hnodup
        obtain ⟨hmakes, hnew⟩ := ih h htail (fun c hc => hloose c (mem_cons_of_mem _ hc)) fun c hc =>
          hpart c (mem_cons_of_mem _ hc)
        have hreference := hloose reference mem_cons_self
        refine ⟨⟨hmakes.toLeads, hmakes.keeps_loose, ?_, fun c hc => ?_, fun c hc => ?_⟩, fun c hc => ?_⟩
        · refine nodup_cons.mpr ⟨fun hmem => ?_, hmakes.nodup⟩
          rcases hnew _ hmem with hold | hle
          · exact hhead hold
          · exact Nat.not_lt_of_le hle hreference.lt_size
        · rcases mem_cons.mp hc with rfl | hc
          · exact hmakes.keeps_loose _ hreference
          · exact hmakes.loose c hc
        · rcases mem_cons.mp hc with rfl | hc
          · exact (hpart c mem_cons_self).of_unplaced (hmakes.unplaced_eq c hreference.lt_size)
          · exact hmakes.part c hc
        · rcases mem_cons.mp hc with rfl | hc
          · exact .inl mem_cons_self
          · exact (hnew c hc).imp_left (mem_cons_of_mem _)

theorem setText_grows (hdelimiter : (b.tree.get owner).delimiter.isValue)
    (hitems : (b.tree.get owner).items = none) (content : String) (kind : ValueKind) :
    Grows modules b (b.setText owner content kind) where
  parsed := by
    refine h.modify owner ?_ ?_ ?_ ?_
    · exact fun _ => rfl
    · exact fun _ => rfl
    · exact fun _ => rfl
    · exact fun _ hpair => hpair
  size_le := (size_modify ..).symm.le
  blocks_eq := rfl
  verbatim hverbatim := by
    refine hverbatim.setValue hdelimiter [] ?_ ?_ ?_ ?_
    · exact fun _ => rfl
    · exact fun _ => rfl
    · exact fun _ hpair _ => hpair.trans hitems
    · intro pair hpair item hitem
      rw [hpair, hitems] at hitem
      cases hitem

theorem setItems_grows (howner : owner < b.tree.size)
    (hdelimiter : (b.tree.get owner).delimiter.isValue) (hnone : (b.tree.get owner).items = none)
    (hnodup : ids.Nodup) (hloose : ∀ c ∈ ids, b.tree.Loose c) (hne : owner ∉ ids)
    (hpart : ∀ c ∈ ids, (b.tree.get c).IsPart) :
    Grows modules b ({ b with tree := b.tree.setItems owner ids }.modify owner fun pair =>
      { pair with valueKind := .concatenation }) where
  parsed := by
    refine (h.setItems howner hnone hnodup hloose hne).modify owner ?_ ?_ ?_ ?_
    · exact fun _ => rfl
    · exact fun _ => rfl
    · exact fun _ => rfl
    · exact fun _ hpair => hpair
  size_le := by
    refine le_of_eq ?_
    simp only [modify, setItems, size_modify, size_setParents]
  blocks_eq := rfl
  verbatim hverbatim := by
    have htree : (b.tree.setItems owner ids).modify owner (fun pair =>
        { pair with valueKind := .concatenation }) = _ := modify_modify ..
    rw [modify, htree]
    refine hverbatim.setValue hdelimiter ids ?_ ?_ ?_ ?_
    · exact fun _ => rfl
    · exact fun _ => rfl
    · exact fun _ _ hkind => ValueKind.noConfusion hkind
    · intro pair _ item hitem
      refine ⟨?_, hpart item hitem⟩
      rintro rfl
      exact hne hitem

theorem setValue_grows (site : Site) (howner : owner < b.tree.size)
    (hdelimiter : (b.tree.get owner).delimiter.isValue) (hitems : (b.tree.get owner).items = none)
    (value : Value) : Grows modules b (b.setValue site owner value) := by
  cases value with
  | text content kind => exact setText_grows h hdelimiter hitems content kind
  | bare content => exact setText_grows h hdelimiter hitems content _
  | reference found =>
    have hpair := makePair_fresh site.format site.file site.fileIndex b.tree ⟨owner, true, false⟩ found.head
    have hadd := add_leads h hpair
    have hdelimiter := Pair.delimiter_eq_of_unplaced (hadd.unplaced_eq owner howner) ▸ hdelimiter
    have hitems := (hadd.items_eq howner).trans hitems
    refine hadd.toGrows.trans ⟨?_, le_of_eq ?_, rfl, fun hverbatim => ?_⟩
    · exact hadd.parsed.setValueReference (howner.trans_le hadd.size_le) (loose_add b.tree hpair) howner.ne
    · simp only [setValue, setValueReference, size_modify, size_setParents]
      rfl
    · refine hverbatim.setValue hdelimiter _ ?_ ?_ ?_ ?_
      · exact fun _ => rfl
      · exact fun _ => rfl
      · exact fun _ hpair _ => hpair.trans hitems
      · intro pair hpair item hitem
        rw [hpair.trans hitems] at hitem
        cases hitem
  | segments parts hparts =>
    obtain ⟨hreferences, hnew⟩ := addReferences_makes h site owner parts
    obtain ⟨htexts, hids⟩ := addTexts_makes hreferences.parsed site parts hreferences.nodup
      hreferences.loose hreferences.part
    have hmade := hreferences.toLeads.trans htexts.toLeads
    have hsame := hmade.unplaced_eq owner howner
    refine hmade.toGrows.trans (setItems_grows htexts.parsed (howner.trans_le hmade.size_le)
      (Pair.delimiter_eq_of_unplaced hsame ▸ hdelimiter) ((hmade.items_eq howner).trans hitems)
      htexts.nodup htexts.loose (fun hmem => ?_) htexts.part)
    rcases hids owner hmem with hold | hle
    · exact Nat.not_lt_of_le (hnew owner hold) howner
    · exact Nat.not_lt_of_le (hreferences.size_le.trans hle) howner

theorem addPair_grows (hroot : site.root ∈ modules) (hparent : parent < b.tree.size)
    {inGroup : Bool} {item : PairItem}
    (hok : b.addPair site parent inGroup item = .ok (id, b')) : Grows modules b b' ∧ id < b'.tree.size := by
  simp only [addPair] at hok
  rw [bind_eq_ok] at hok
  obtain ⟨c, hattach, hok⟩ := hok
  cases hok
  have hpair : (b.pairFor site parent inGroup item.head).Fresh := makePair_fresh ..
  have hadd := add_leads h hpair
  have hloose := loose_add b.tree hpair
  have hattach := attach_leads hadd.parsed hroot (hparent.trans_le hadd.size_le) hloose hparent.ne hattach
  have hreport := hattach.trans (reportAll_leads hattach.parsed site item.notes)
  have hlt := hloose.lt_size.trans_le hreport.size_le
  have hsame : ((c.reportAll site item.notes).tree.get b.tree.size).unplaced =
      (b.pairFor site parent inGroup item.head).unplaced := by
    refine (hreport.unplaced_eq _ hloose.lt_size).trans (congrArg Pair.unplaced ?_)
    exact get_add_self ..
  have hvalue : Grows modules (c.reportAll site item.notes) (item.value.elim
      (c.reportAll site item.notes) ((c.reportAll site item.notes).setValue site b.tree.size)) := by
    cases hfound : item.value with
    | none => exact (Leads.refl hreport.parsed).toGrows
    | some value =>
      refine setValue_grows hreport.parsed site hlt ?_ (Pair.items_eq_of_unplaced hsame) value
      rw [Pair.delimiter_eq_of_unplaced hsame]
      exact item.announced.symm.trans (by rw [hfound]; rfl)
  have hspan : Grows modules _ _ := (modify_leads hvalue.parsed b.tree.size
    (f := fun pair => { pair with span := ⟨pair.span.start, item.stop⟩ }) (fun _ => rfl) (fun _ => rfl)
    fun _ => rfl).toGrows
  have hall := (hreport.toGrows.trans hvalue).trans hspan
  exact ⟨hadd.toGrows.trans hall, hloose.lt_size.trans_le hall.size_le⟩

end

/-- What holds of all pairs that a line may still refer to. -/
structure LineState.All (p : PairId → Prop) (state : LineState) : Prop where
  levels : ∀ x ∈ state.levels, p x
  current : ∀ x, state.current = some x → p x

namespace LineState.All

variable {state : LineState} {p q : PairId → Prop}

theorem initial {block : PairId} (h : p block) : (initial block).All p :=
  ⟨by simpa [LineState.initial] using h, nofun⟩

section

variable (h : state.All p)

include h

theorem imp (hpq : ∀ x, p x → q x) : state.All q :=
  ⟨fun x hx => hpq x (h.levels x hx), fun x hx => hpq x (h.current x hx)⟩

theorem container {block : PairId} (hblock : p block) : p (state.container block) := by
  unfold LineState.container
  cases hlast : state.levels.getLast? with
  | none => exact hblock
  | some x => exact h.levels x (mem_of_getLast? hlast)

theorem separate : state.separate.All p := by
  unfold LineState.separate
  split
  · exact ⟨fun x hx => h.levels x (mem_of_mem_take hx), h.current⟩
  · exact h

theorem openGroup : state.openGroup.All p := ⟨h.levels, h.current⟩

theorem closeGroup : state.closeGroup.All p := by
  unfold LineState.closeGroup
  split
  · exact h
  · refine ⟨fun x hx => h.levels x (mem_of_mem_take hx), fun x hx => ?_⟩
    dsimp only at hx
    split at hx
    · exact h.levels x (mem_of_mem_take (mem_of_getLast? hx))
    · exact h.current x hx

theorem enter {id : PairId} (hid : p id) (item : PairItem) : (state.enter id item).All p := by
  unfold LineState.enter
  have hcurrent : ∀ x, some id = some x → p x := by
    rintro x ⟨⟩
    exact hid
  split
  · refine ⟨fun x hx => ?_, hcurrent⟩
    rcases mem_append.mp hx with hx | hx
    · exact h.levels x hx
    · exact mem_singleton.mp hx ▸ hid
  · exact ⟨h.levels, hcurrent⟩

end

end LineState.All

/-- All pairs that a line may still refer to are below the given number. -/
abbrev LineState.Within (state : LineState) (n : Nat) : Prop := state.All (· < n)

theorem LineState.Within.mono {n m : Nat} (h : state.Within n) (hle : n ≤ m) :
    state.Within m := All.imp h fun _ hx => hx.trans_le hle

theorem addItem_grows (h : b.tree.Parsed modules) (hroot : site.root ∈ modules)
    (hblock : block < b.tree.size) {state' : LineState} (hstate : state.Within b.tree.size) {item : Item}
    (hok : addItem site block b state item = .ok (b', state')) :
    Grows modules b b' ∧ state'.Within b'.tree.size := by
  have hcontainer := hstate.container hblock
  cases item with
  | separator =>
    cases hok
    exact ⟨(Leads.refl h).toGrows, hstate.separate⟩
  | openGroup =>
    cases hok
    exact ⟨(Leads.refl h).toGrows, hstate.openGroup⟩
  | closeGroup =>
    cases hok
    exact ⟨(Leads.refl h).toGrows, hstate.closeGroup⟩
  | note note =>
    cases hok
    exact ⟨(report_leads h site note).toGrows, hstate⟩
  | comment comment =>
    rw [addItem, bind_eq_ok] at hok
    obtain ⟨c, hc, hok⟩ := hok
    cases hok
    have hleads := addComment_leads h hcontainer hc
    exact ⟨hleads.toGrows, hstate.mono hleads.size_le⟩
  | pair item =>
    rw [addItem, bind_eq_ok] at hok
    obtain ⟨⟨id, c⟩, hc, hok⟩ := hok
    cases hok
    obtain ⟨hgrows, hid⟩ := addPair_grows h hroot hcontainer hc
    exact ⟨hgrows, (hstate.mono hgrows.size_le).enter hid item⟩

theorem addItems_grows (h : b.tree.Parsed modules) (hroot : site.root ∈ modules)
    (hblock : block < b.tree.size) {items : List Item}
    (hok : addItems site block b items = .ok (b', state)) : Grows modules b b' ∧ state.Within b'.tree.size := by
  refine foldlM_ok_induction (P := fun s => Grows modules b s.1 ∧ s.2.Within s.1.tree.size) ?_
    ⟨(Leads.refl h).toGrows, .initial hblock⟩ hok
  rintro ⟨c, state⟩ item - ⟨c', state'⟩ ⟨hgrows, hstate⟩ hstep
  obtain ⟨hadded, hstate'⟩ := addItem_grows hgrows.parsed hroot (hblock.trans_le hgrows.size_le) hstate hstep
  exact ⟨hgrows.trans hadded, hstate'⟩

/-- What holds between lines. -/
structure Sound (modules : List PairId) (b : Builder) : Prop where
  parsed : b.tree.Parsed modules
  verbatim : b.tree.Verbatim
  blocks_lt : ∀ x ∈ b.blocks, x < b.tree.size

section

variable (h : b.Sound modules)

include h

theorem Sound.grows (hgrows : Grows modules b b') : b'.Sound modules where
  parsed := hgrows.parsed
  verbatim := hgrows.verbatim h.verbatim
  blocks_lt x hx := (h.blocks_lt x (hgrows.blocks_eq ▸ hx)).trans_le hgrows.size_le

variable (hroot : site.root ∈ modules)

include hroot

theorem Sound.blockAt_lt (depth : Nat) : b.blockAt site depth < b.tree.size := by
  unfold blockAt
  cases hblock : b.blocks[depth]? with
  | none => exact h.parsed.module_lt_size hroot
  | some x => exact h.blocks_lt x (mem_of_getElem? hblock)

theorem Sound.lineBlock_grows (depth : Nat) (lead : Span) : Grows modules b (b.lineBlock site depth lead).2 ∧
      (b.lineBlock site depth lead).1 < (b.lineBlock site depth lead).2.tree.size := by
  simp only [lineBlock]
  split
  · have hreport := report_leads h.parsed site (b.blockNotExpected (b.blockAt site depth) lead)
    have horphan := orphan_fresh site lead.stop
    exact ⟨(hreport.trans (add_leads hreport.parsed horphan)).toGrows, (loose_add b.tree horphan).lt_size⟩
  · exact ⟨(Leads.refl h.parsed).toGrows, h.blockAt_lt hroot depth⟩

theorem addLine_sound {line : Line} (hok : addLine site b line = .ok b') : b'.Sound modules := by
  cases line with
  | rejected note =>
    cases hok
    exact h.grows (report_leads h.parsed site note).toGrows
  | comments depth comments =>
    refine foldlM_ok_induction (P := fun c => c.Sound modules) (fun c comment _ c' hc hstep => ?_) h hok
    exact hc.grows (addComment_leads hc.parsed (hc.blockAt_lt hroot depth) hstep).toGrows
  | content depth lead items =>
    simp only [addLine] at hok
    rw [bind_eq_ok] at hok
    obtain ⟨⟨c, state⟩, hitems, hok⟩ := hok
    cases hok
    obtain ⟨hgrows, hlt⟩ := h.lineBlock_grows hroot depth lead
    obtain ⟨hadded, hstate⟩ := addItems_grows hgrows.parsed hroot hlt hitems
    have hsound := h.grows (hgrows.trans hadded)
    refine ⟨hsound.parsed, hsound.verbatim, fun x hx => ?_⟩
    simp only [mem_append, mem_singleton, mem_toList] at hx
    rcases hx with (hx | rfl) | hx
    · exact hsound.blocks_lt x (mem_of_mem_take hx)
    · exact hlt.trans_le hadded.size_le
    · exact hstate.current x hx

end

theorem toValuePlace_core (pair : Pair) : (toValuePlace pair).core = pair.core := by
  unfold toValuePlace
  split
  · rename_i hkind
    simp only [Pair.core, hkind, Kind.core]
  · rfl

theorem toValuePlace_unplaced (pair : Pair) : (toValuePlace pair).unplaced = pair.unplaced := by
  unfold toValuePlace
  split
  · rename_i hkind
    simp only [Pair.unplaced, hkind, unplaced]
  · rfl

/-- Gathering takes the children of a pair away and gives them back, some of them as
    parts of its value. What all of this leaves as it is can be read off before it. -/
theorem gatherItems_eq_of_keeps {α : Type} (g : Pair → α) (t : PairTree) (id x : PairId)
    (hparent : ∀ pair parent, g { pair with parent } = g pair)
    (hplace : ∀ pair, g (toValuePlace pair) = g pair)
    (hself : x = id → ∀ pair children items valueKind, g { pair with children, items, valueKind } = g pair) :
    g ((gatherItems t id).get x) = g (t.get x) := by
  unfold gatherItems setItems adoptChildren takeChildren
  refine (modify_eq_of_keeps_at g _ id x ?_).trans ?_
  · exact fun hx pair => hself hx pair pair.children pair.items _
  refine (modify_eq_of_keeps_at g _ id x ?_).trans ?_
  · exact fun hx pair => hself hx pair pair.children _ pair.valueKind
  refine (setParents_eq_of_keeps g _ _ _ x hparent).trans ?_
  refine (modify_eq_of_keeps_at g _ id x ?_).trans ?_
  · exact fun hx pair => hself hx pair _ pair.items pair.valueKind
  refine (setParents_eq_of_keeps g _ _ _ x hparent).trans ?_
  refine (foldl_modify_eq_of_keeps g _ _ x hplace).trans ?_
  refine (setParents_eq_of_keeps g _ _ _ x hparent).trans ?_
  refine modify_eq_of_keeps_at g _ id x ?_
  exact fun hx pair => hself hx pair _ pair.items pair.valueKind

theorem parent?_gatherItems (hwf : t.WellFormed) (id x : PairId) : (gatherItems t id).parent? x = t.parent? x := by
  have hchild : ∀ {c}, c ∈ t.children id → c < t.size ∧ t.parent? c = some id := by
    intro c hc
    have hheld : c ∈ (t.get id).held := mem_append_left _ hc
    exact ⟨hwf.held_lt_size hheld, hwf.mem_held_iff.mp hheld⟩
  unfold gatherItems setItems adoptChildren takeChildren
  simp only [partition_eq_filter_filter]
  generalize (fun c => (kind _ c).isComment : PairId → Bool) = isComment
  have hfold := fun (tree : PairTree) (ids : List PairId) =>
    foldl_modify_eq_of_keeps Pair.parent tree ids x (f := toValuePlace)
      fun pair => Pair.parent_eq_of_core (toValuePlace_core pair)
  refine (modify_eq_of_keeps Pair.parent _ id x ?_).trans ?_
  · exact fun _ => rfl
  refine (modify_eq_of_keeps Pair.parent _ id x ?_).trans ?_
  · exact fun _ => rfl
  refine (parent?_setParents ..).trans ?_
  split
  · rename_i hx
    exact (hchild (mem_of_mem_filter hx.1)).2.symm
  rename_i hitem
  refine (modify_eq_of_keeps Pair.parent _ id x ?_).trans ?_
  · exact fun _ => rfl
  refine (parent?_setParents ..).trans ?_
  split
  · rename_i hx
    exact (hchild (mem_of_mem_filter hx.1)).2.symm
  rename_i hcomment
  refine (hfold _ _).trans ((parent?_setParents ..).trans ?_)
  simp only [size_modify, size_setParents, size_foldl_modify, mem_filter] at hitem hcomment ⊢
  split
  · rename_i hx
    -- A child is a comment or a part of the value, so one of the cases above applied.
    exfalso
    cases hq : isComment x with
    | true => exact hcomment ⟨⟨hx.1, hq⟩, hx.2⟩
    | false => exact hitem ⟨⟨hx.1, by simp [hq]⟩, hx.2⟩
  · exact modify_eq_of_keeps Pair.parent t id x fun _ => rfl

theorem held_gatherItems (hid : id < t.size) (hitems : (t.get id).items = none) :
    ((gatherItems t id).get id).held.Perm (t.get id).held := by
  unfold gatherItems setItems adoptChildren takeChildren
  simp only [partition_eq_filter_filter]
  generalize (fun c => (kind _ c).isComment : PairId → Bool) = isComment
  have hfold := fun (tree : PairTree) (ids : List PairId) =>
    foldl_modify_eq_of_keeps Pair.children tree ids id (f := toValuePlace)
      fun pair => Pair.children_eq_of_core (toValuePlace_core pair)
  have hparents := fun (tree : PairTree) (ids : List PairId) (parent : Option PairId) =>
    setParents_eq_of_keeps Pair.children tree ids parent id fun _ _ => rfl
  rw [get_modify_self (by simpa using hid), get_modify_self (by simpa using hid)]
  simp only [Pair.held, getD_some, hparents]
  rw [get_modify_self (by simpa using hid)]
  simp only [hparents, hfold]
  rw [get_modify_self hid]
  simp only [nil_append, hitems, getD_none, append_nil]
  exact filter_append_perm isComment (t.get id).children

theorem gatherItems_parsed (h : t.Parsed modules) (hid : id < t.size) (hitems : (t.get id).items = none) :
    (gatherItems t id).Parsed modules := by
  have hkind : ∀ x, ((gatherItems t id).kind x).unplaced = (t.kind x).unplaced := fun x =>
    gatherItems_eq_of_keeps (fun pair => pair.kind.unplaced) t id x (fun _ _ => rfl)
      (fun pair => congrArg Pair.kind (toValuePlace_unplaced pair)) fun _ _ _ _ _ => rfl
  refine h.of_similar_kinds (h.wellFormed.of_same_links (parent?_gatherItems h.wellFormed id)
    fun x => ?_) (fun x => ?_) (fun x hx => ?_) fun x _ => parent?_gatherItems h.wellFormed id x
  · by_cases hx : x = id
    · subst hx
      exact held_gatherItems hid hitems
    · exact .of_eq (gatherItems_eq_of_keeps Pair.held t id x (fun _ _ => rfl)
        (fun pair => Pair.held_eq_of_core (toValuePlace_core pair)) fun hself => absurd hself hx)
  · rw [← isModule_unplaced, hkind, isModule_unplaced]
  · rw [← unresolved_unplaced, hkind, unresolved_unplaced]
    exact hx

theorem gatherItems_verbatim (h : t.Verbatim) (hid : id < t.size)
    (hdelimiter : (t.get id).delimiter = .colonEqual) : (gatherItems t id).Verbatim := by
  have hkept : ((gatherItems t id).get id).delimiter = .colonEqual := by
    refine (gatherItems_eq_of_keeps Pair.delimiter t id id (fun _ _ => rfl) (fun pair => ?_)
      fun _ _ _ _ _ => rfl).trans hdelimiter
    exact Pair.delimiter_eq_of_unplaced (toValuePlace_unplaced pair)
  refine h.update ?_ (fun x hx => ?_) ?_ ⟨?_, fun hvalue => ?_⟩ fun hnot => absurd hkept hnot
  · intro htext
    rw [htext.delimiter_eq] at hdelimiter
    cases hdelimiter
  · exact gatherItems_eq_of_keeps Pair.unplaced t id x (fun _ _ => rfl) toValuePlace_unplaced
      fun hself => absurd hself hx
  · refine gatherItems_eq_of_keeps (fun pair => pair.kind.isElement) t id id (fun _ _ => rfl)
      (fun pair => ?_) fun _ _ _ _ _ => rfl
    exact Pair.isElement_eq_of_unplaced (toValuePlace_unplaced pair)
  · refine (gatherItems_eq_of_keeps Pair.namespaceUri t id id (fun _ _ => rfl) (fun pair => ?_)
      fun _ _ _ _ _ => rfl).trans (h.pair id).namespaceUri_eq
    exact (show (toValuePlace pair).unplaced.namespaceUri = pair.unplaced.namespaceUri from
      congrArg Pair.namespaceUri (toValuePlace_unplaced pair))
  · unfold gatherItems at hvalue
    rw [get_modify_self (by simpa [setItems] using hid)] at hvalue
    cases hvalue

/-- A pair is given its parts, is found to be an object, or stays as it is. -/
theorem finishPair_cases {P : PairTree → Prop} (id : PairId)
    (hgather : id < t.size → (t.get id).delimiter = .colonEqual → (t.get id).items = none → P (gatherItems t id))
    (hobject : (t.get id).delimiter = .none → (t.get id).valueKind = .none →
      P (t.modify id fun pair => { pair with valueKind := .object })) (hsame : P t) : P (finishPair t id) := by
  simp only [finishPair]
  split
  · rename_i hcond
    simp only [Bool.and_eq_true, decide_eq_true_eq, isNone_iff_eq_none] at hcond
    refine hgather ?_ hcond.1 hcond.2
    by_contra hnot
    rw [get_eq_default (Nat.le_of_not_lt hnot)] at hcond
    cases hcond.1
  · split
    · rename_i hcond
      simp only [Bool.and_eq_true, decide_eq_true_eq] at hcond
      exact hobject hcond.1.1.1 hcond.1.1.2
    · exact hsame

theorem finishPair_parsed (h : t.Parsed modules) (id : PairId) : (finishPair t id).Parsed modules := by
  refine finishPair_cases (P := (·.Parsed modules)) id (fun hid _ => gatherItems_parsed h hid) (fun _ _ => ?_) h
  refine h.modify id ?_ ?_ ?_ ?_
  · exact fun _ => rfl
  · exact fun _ => rfl
  · exact fun _ => rfl
  · exact fun _ hpair => hpair

theorem finishPair_verbatim (h : t.Verbatim) (id : PairId) : (finishPair t id).Verbatim := by
  refine finishPair_cases (P := (·.Verbatim)) id (fun hid hdelimiter _ => gatherItems_verbatim h hid hdelimiter)
    (fun _ hnone => h.setObject fun htext => ?_) h
  rw [htext.valueKind_eq] at hnone
  cases hnone

theorem finish_sound (hparsed : b.tree.Parsed modules) (hverbatim : b.tree.Verbatim) :
    (b.finish site).tree.Parsed modules ∧ (b.finish site).tree.Verbatim := by
  unfold finish
  generalize b.tree.preorder site.root = ids
  induction ids generalizing b with
  | nil => exact ⟨hparsed, hverbatim⟩
  | cons id ids ih =>
    exact ih (b := { b with tree := finishPair b.tree id }) (finishPair_parsed hparsed id)
      (finishPair_verbatim hverbatim id)

end Builder

/-- Where the lines of the next module go. -/
def ModuleSet.nextSite (set : ModuleSet) (file : String) (format : Format) : Site :=
  let (root, set) := set.addModule file format
  ⟨root, format, file, (set.tree.get root).fileIndex⟩

theorem ModuleSet.root_mem_modules (format : Format) :
    (set.nextSite file format).root ∈ (set.addModule file format).2.modules :=
  mem_append_right _ (mem_singleton_self _)

/-- The next module before its first line. -/
def ModuleSet.opened (set : ModuleSet) (file : String) (format : Format) : Builder :=
  let (root, set) := set.addModule file format
  ⟨set.tree, [root], []⟩

/-- What becomes of the modules when all lines of the next one are there. -/
def ModuleSet.closed (set : ModuleSet) (file : String) (format : Format) (b : Builder) : ModuleSet :=
  { (set.addModule file format).2 with tree := (b.finish (set.nextSite file format)).tree }

theorem ModuleSet.result_parse (format : Format) (text : List Char) : (set.parse file format text).result =
      (((ofText text).foldlM (addLine (set.nextSite file format))
        (set.opened file format)).map (set.closed file format)).mapError Halt.fault := by
  unfold ModuleSet.parse ModuleSet.nextSite ModuleSet.opened
  dsimp only
  generalize (foldlM _ _ (ofText text) : Except Halt Builder) = outcome
  cases outcome <;> rfl

variable {text : List Char}

theorem ModuleSet.parse_eq_ok {set set' : ModuleSet} {file : String} {format : Format}
    (h : (set.parse file format text).result = .ok set') :
    ∃ b, (ofText text).foldlM (addLine (set.nextSite file format))
      (set.opened file format) = .ok b ∧ set' = set.closed file format b := by
  rw [result_parse] at h
  cases hlines : (ofText text).foldlM (addLine (set.nextSite file format)) (set.opened file format) with
  | error halt =>
    rw [hlines] at h
    cases h
  | ok b =>
    rw [hlines] at h
    cases h
    exact ⟨b, rfl, rfl⟩

/-- A unit as reading makes it. -/
structure ModuleSet.Parsed (set : ModuleSet) : Prop where
  tree_parsed : set.tree.Parsed set.modules
  verbatim : set.tree.Verbatim
  modules_nodup : set.modules.Nodup

namespace ModuleSet.Parsed

open PairTree

theorem empty : ModuleSet.empty.Parsed where
  tree_parsed := by
    have hget : ∀ x, PairTree.empty.get x = default := fun x => PairTree.get_eq_default (Nat.zero_le x)
    refine ⟨⟨⟨fun p => ?_, fun {c p} => ?_, ⟨fun _ => 0, fun c p h => ?_⟩⟩, fun m hm => ?_,
      fun x h => ?_⟩, fun x => ?_⟩
    · rw [ModuleSet.empty, hget]
      exact .nil
    · rw [ModuleSet.empty, parent?, hget, hget]
      constructor
      · intro h
        cases h
      · intro h
        cases h
    · rw [ModuleSet.empty, parent?, hget] at h
      cases h
    · cases hm
    · rw [ModuleSet.empty, parent?, hget]
      rfl
    · rw [ModuleSet.empty, kind, hget]
      trivial
  verbatim := by
    have hget : ∀ x, PairTree.empty.get x = default := fun x => PairTree.get_eq_default (Nat.zero_le x)
    refine ⟨fun x => ?_, fun x _ item hitem => ?_⟩
    · rw [ModuleSet.empty, hget]
      exact ⟨rfl, fun _ => rfl⟩
    · rw [ModuleSet.empty, hget] at hitem
      cases hitem
  modules_nodup := .nil

theorem addModule {set : ModuleSet} (h : set.Parsed) (file : String) (format : Format) :
    (set.addModule file format).2.Parsed where
  tree_parsed := by
    obtain ⟨⟨hwf, hmodule, hparent⟩, hunresolved⟩ := h.tree_parsed
    refine ⟨⟨hwf.add rfl rfl, fun m hm => ?_, fun x hx => ?_⟩, fun x => ?_⟩
    · rw [ModuleSet.addModule, kind, get_add]
      split
      · rfl
      · rename_i hne
        rcases mem_append.mp hm with hm | hm
        · exact hmodule m hm
        · exact absurd (mem_singleton.mp hm) hne
    · rw [ModuleSet.addModule, kind, get_add] at hx
      rw [ModuleSet.addModule, parent?, get_add]
      split
      · rfl
      · rename_i hne
        rw [if_neg hne] at hx
        exact hparent x hx
    · rw [ModuleSet.addModule, kind, get_add]
      split
      · trivial
      · exact hunresolved x
  verbatim := by
    refine h.verbatim.extend h.tree_parsed.wellFormed (fun x hx => ?_) fun x hx => ?_
    · exact congrArg Pair.unplaced (get_add_of_ne _ _ hx.ne)
    · rw [ModuleSet.addModule, get_add]
      split
      · exact ⟨⟨rfl, fun _ => rfl⟩, rfl⟩
      · rw [get_eq_default hx]
        exact ⟨⟨rfl, fun _ => rfl⟩, rfl⟩
  modules_nodup := by
    refine nodup_append.mpr ⟨h.modules_nodup, nodup_singleton _, fun m hm n hn => ?_⟩
    rw [mem_singleton.mp hn]
    exact (h.tree_parsed.module_lt_size hm).ne

theorem parse {set set' : ModuleSet} (h : set.Parsed) {file : String} {format : Format}
    (hok : (set.parse file format text).result = .ok set') : set'.Parsed := by
  have hadd := h.addModule file format
  have hroot := set.root_mem_modules file format
  obtain ⟨b, hlines, rfl⟩ := parse_eq_ok hok
  have hsound : Builder.Sound (set.addModule file format).2.modules b := by
    refine foldlM_ok_induction (P := Builder.Sound (set.addModule file format).2.modules)
      (fun b line _ b' hb hstep => ?_) ⟨hadd.tree_parsed, hadd.verbatim, fun x hx => ?_⟩ hlines
    · exact addLine_sound hb hroot hstep
    · rw [mem_singleton.mp hx]
      exact hadd.tree_parsed.module_lt_size hroot
  obtain ⟨hparsed, hverbatim⟩ := finish_sound hsound.parsed hsound.verbatim
  exact ⟨hparsed, hverbatim, hadd.modules_nodup⟩

end ModuleSet.Parsed

namespace Session

variable {s s' : Session}

theorem parse_eq_ok {source : Source} (hok : s.parse source = .ok s') :
    (s.set.parse source.name source.format source.text).result = .ok s'.set ∧
      s.collection.receiveAll (s.set.parse source.name source.format source.text).log = .ok s'.collection := by
  rw [parse_eq_accept, accept] at hok
  split at hok
  · cases hok
  · rename_i hreceive
    split at hok
    · rename_i hset
      cases hok
      exact ⟨hset, hreceive⟩
    · cases hok

variable {sources : List Source} {limit : Option Nat}

theorem parseAll_parsed (h : s.set.Parsed) (hok : s.parseAll sources = .ok s') : s'.set.Parsed :=
  foldlM_ok_induction (P := fun s => s.set.Parsed) (fun _ _ _ _ hs hstep => hs.parse (parse_eq_ok hstep).1) h hok

theorem parsed_of_start (hok : (start limit).parseAll sources = .ok s) : s.set.Parsed := parseAll_parsed .empty hok

theorem start_induction {P : ModuleSet → Prop} (hempty : P .empty)
    (hparse : ∀ {set set' file format text}, set.Parsed → P set →
      (set.parse file format text).result = .ok set' → P set') (hok : (start limit).parseAll sources = .ok s) :
    P s.set := by
  refine (foldlM_ok_induction (P := fun s => s.set.Parsed ∧ P s.set) (fun s source _ s' hs hstep => ?_)
    ⟨.empty, hempty⟩ hok).2
  have hset := (parse_eq_ok hstep).1
  exact ⟨hs.1.parse hset, hparse hs.1 hs.2 hset⟩

end Session

end PairMarkup
