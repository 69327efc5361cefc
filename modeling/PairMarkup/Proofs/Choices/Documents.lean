import PairMarkup.Proofs.Choices.Charting
import PairMarkup.Proofs.Layout

namespace PairMarkup

open List Kind Glyph Cursor

theorem makePair_begins (format : Format) (file : String) (fileIndex : Nat) (tree : PairTree)
    (setting : Setting) (head : Head) :
    (format.makePair file fileIndex tree setting head).kind.isComment = false ∧
      ∀ choices, (format.makePair file fileIndex tree setting head).kind.choices? = some choices →
        choices = .empty := by
  have hplain : ∀ {kind : Kind}, kind.isComment = false → kind.choices? = none →
      kind.isComment = false ∧ ∀ choices, kind.choices? = some choices → choices = .empty := by
    intro kind hcomment hnone
    refine ⟨hcomment, fun choices hchoices => ?_⟩
    cases hnone.symm.trans hchoices
  have hshared : ∀ kind, sharedKind? tree setting head = some kind →
      kind.isComment = false ∧ ∀ choices, kind.choices? = some choices → choices = .empty := by
    intro kind hkind
    unfold sharedKind? at hkind
    split at hkind
    case h_1 =>
      cases hkind
      exact ⟨rfl, fun choices hchoices => (Option.some.inj hchoices).symm⟩
    case h_5 =>
      cases hkind
      simp only [percentKind]
      split_ifs <;> exact hplain rfl rfl
    case h_6 =>
      split at hkind
      · cases hkind
        exact hplain rfl rfl
      · cases hkind
    all_goals
      cases hkind
      try exact hplain rfl rfl
  change (format.interpret tree setting head).1.isComment = false ∧
    ∀ choices, (format.interpret tree setting head).1.choices? = some choices → choices = .empty
  unfold Format.interpret
  split
  case h_1 hkind => exact hshared _ hkind
  case h_3 => split <;> exact hplain rfl rfl
  all_goals exact hplain rfl rfl

namespace PairTree

variable {t t' : PairTree} {root x : PairId} {n : Nat} {parts : List Segment} {ids : List PairId} {owner : PairId}
  {site : Site} {mid : PairTree}

/-- All choices from the module on begin before this place. -/
def StartsBefore (root : PairId) (n : Nat) (t : PairTree) : Prop :=
  ∀ x, root ≤ x → t.offers x = true → t.startOf x < n

theorem StartsBefore.mono (h : t.StartsBefore root n) {m : Nat} (hle : n ≤ m) : t.StartsBefore root m :=
  fun x hx hoffers => (h x hx hoffers).trans_le hle

theorem lt_size_of_offers (h : t.offers x) : x < t.size := by
  refine Nat.lt_of_not_le fun hle => ?_
  cases (offers_eq_false hle).symm.trans h

theorem StartsBefore.retains (h : t.StartsBefore root n) (hretains : Retains t t') : t'.StartsBefore root n := by
  intro x hx hoffers
  rw [hretains.offers_all] at hoffers
  rw [hretains.start_old (lt_size_of_offers hoffers)]
  exact h x hx hoffers

/-- What hangs below a pair of the module is in the module. -/
theorem Apart.le_of_ancestor (h : t.Apart root) (hwf : t.WellFormed) {a : PairId} (ha : a ∈ t.ancestors x)
    (hle : root ≤ a) : root ≤ x := by
  induction x using hwf.induction_up with
  | root x hnone => simp [ancestors_eq_nil hnone] at ha
  | child x p hp ih =>
    rw [hwf.ancestors_eq_cons hp, mem_cons] at ha
    have hparent : root ≤ p := by
      rcases ha with rfl | ha
      · exact hle
      · exact ih ha
    exact Nat.le_of_not_lt fun hlt => Nat.not_lt.mpr hparent ((h x p hp).mp hlt)

/-- The pairs for the parts of a value are neither choices nor documents. -/
theorem Shows.not_choice (h : Shows site owner parts ids t mid) (hx : t.size ≤ x) :
    (mid.get x).delimiter.isChoice = false ∧ (mid.get x).kind.choices? = none := by
  rcases lt_or_ge x mid.size with hlt | hge
  · obtain ⟨part, hmem, hpart⟩ := h.all.exists_part (h.mem_of_new x hx hlt)
    cases part with
    | text content span =>
      rw [show mid.get x = _ from hpart]
      exact ⟨rfl, rfl⟩
    | reference found =>
      obtain ⟨tree, hpair⟩ := hpart
      rw [hpair]
      obtain ⟨_ | _, name, span⟩ := found <;> exact ⟨rfl, rfl⟩
  · rw [get_eq_default hge]
    exact ⟨rfl, rfl⟩

theorem Shows.retains (h : Shows site owner parts ids t mid) (howner : owner < t.size)
    (hcomment : (t.kind owner).isComment = false) (hoffers : t.offers owner = false) (hnew : ∀ c ∈ ids, t.size ≤ c)
    {f : Pair → Pair}
    (hf : ∀ pair, (f pair).mark = pair.mark) : Retains t ((mid.setParents ids (some owner)).modify owner f) := by
  have hmark : ∀ x, (((mid.setParents ids (some owner)).modify owner f).get x).mark =
      ((mid.setParents ids (some owner)).get x).mark := fun x => modify_eq_of_keeps Pair.mark _ owner x hf
  have hold : ∀ x, x < t.size → (mid.setParents ids (some owner)).get x = t.get x := by
    intro x hx
    rw [get_setParents, if_neg fun hmem => Nat.not_lt.mpr (hnew x hmem.1) hx, h.get_eq x hx]
  refine ⟨⟨?_, fun x hx => ?_⟩, fun x hx => ?_, fun x hx choices hchoices => ?_, fun x p hx hparent => ?_⟩
  · rw [size_modify, size_setParents]
    exact h.size_le
  · rw [hmark, hold x hx]
  · refine (congrArg Pair.Mark.offers (hmark x) :).trans ?_
    refine (setParents_eq_of_keeps (fun pair => pair.delimiter.isChoice) mid ids _ x fun _ _ => rfl).trans ?_
    exact (h.not_choice hx).1
  · have hsame := (congrArg Pair.Mark.choices (hmark x) :).trans
      (setParents_eq_of_keeps (fun pair => pair.kind.choices?) mid ids _ x fun _ _ => rfl)
    cases (hsame.trans (h.not_choice hx).2).symm.trans hchoices
  · -- the parts hang from the pair that has the value, and that is no choice
    have howner' := (congrArg Pair.Mark.parent (hmark x) :).symm.trans hparent
    rcases lt_or_ge x mid.size with hlt | hge
    · have hself := (parent?_setParents mid ids (some owner) x).symm.trans howner'
      rw [if_pos ⟨h.mem_of_new x hx hlt, hlt⟩] at hself
      cases hself
      have hsame := hmark owner
      rw [hold owner howner] at hsame
      refine .inr ⟨(congrArg Pair.Mark.isComment hsame :).trans hcomment, fun hup => ?_⟩
      cases ((congrArg Pair.Mark.offers hsame :).trans hoffers).symm.trans hup
    · rw [get_eq_default (by rw [size_setParents]; exact hge)] at howner'
      cases howner'

end PairTree

namespace Builder

open PairTree

variable {modules : List PairId} {site : Site} {b b' : Builder} {parent child : PairId} {gs rest : List Glyph}
  {position stop : Position} {item : PairItem} {cursor : Cursor} {t t' : PairTree}

theorem addComment_retains {comment : Comment} (hok : b.addComment site parent comment = .ok b') :
    Retains b.tree b'.tree := by
  simp only [addComment] at hok
  obtain ⟨tree, happend, rfl⟩ := append_eq_ok hok
  simp only [add, tree_reportAll] at happend ⊢
  refine add_append_retains rfl rfl (fun choices hchoices => ?_) happend
  cases hchoices

theorem addOrphan_retains (b : Builder) (site : Site) (position : Position) :
    Retains b.tree (b.addOrphan site position).2.tree := by
  refine add_retains rfl rfl fun choices hchoices => ?_
  cases hchoices

theorem redirect_retains {target : PairId} (hok : b.redirect site parent child = .ok (target, b')) :
    Retains b.tree b'.tree := by
  simp only [redirect] at hok
  split at hok
  · unfold implicitDocument at hok
    split at hok
    · cases hok
      exact .refl _
    · rw [bind_eq_ok] at hok
      obtain ⟨c, hc, hok⟩ := hok
      cases hok
      obtain ⟨tree, happend, rfl⟩ := append_eq_ok hc
      refine add_append_retains rfl rfl (fun choices hchoices => ?_) happend
      cases hchoices
      rfl
  · cases hok
    exact .refl _

theorem append_orphan_charted (h : t.Parsed modules) (hcharted : t.Charted)
    (hchild : t.Loose child) {pair : Pair} (hpair : pair.Fresh) (hoffers : pair.delimiter.isChoice = false)
    (hdocument : pair.kind.choices? = none) (happend : (t.add pair).2.append t.size child = .ok t') :
    t'.Charted ∧ (∀ x, t'.offers x = t.offers x) ∧ ∀ x, x < t.size → t'.startOf x = t.startOf x := by
  have hwf := (h.add hpair).wellFormed
  have hne : t.size ≠ child := hchild.lt_size.ne'
  have horphan := loose_add t hpair
  have hhung : Hung t.size child (t.add pair).2 t' :=
    ⟨hwf, hwf.append horphan.lt_size (hchild.add pair).toDetached hne happend, (hchild.add pair).toDetached, hne,
      happend⟩
  have hretains : Retains t (t.add pair).2 := by
    refine add_retains hpair.parent_eq hoffers fun choices hchoices => ?_
    cases hdocument.symm.trans hchoices
  refine ⟨hhung.charted (hcharted.retains hretains h.wellFormed hwf) fun doc a hnests => ?_, fun x => ?_,
    fun x hx => ?_⟩
  · have hmem := hnests.mem_ancestors
    rw [hhung.ancestors_child, ancestors_eq_nil horphan.parent_eq, mem_singleton] at hmem
    have hdoc := hnests.2.1
    rw [kind_append happend, hmem, PairTree.kind, get_add_self, isDocument_eq_isSome, hdocument] at hdoc
    cases hdoc
  · rw [offers_append happend, hretains.offers_all]
  · rw [startOf_append happend, hretains.start_old hx]

section

variable (h : b.tree.Parsed modules) {owner : PairId}

include h

/-- A pair is put somewhere. If it is a choice, it is entered into the choices of its document. -/
theorem place_charted (hcharted : b.tree.Charted) (happart : b.tree.Apart site.root)
    (hparent : parent < b.tree.size) (hroot : site.root ≤ parent)
    (hchild : b.tree.Loose child) (hle : site.root ≤ child) (hne : parent ≠ child)
    (hlast : ∀ c, site.root ≤ c → c ≠ child → b.tree.offers c → b.tree.startOf c < b.tree.startOf child)
    (hok : b.place site parent child position = .ok b') :
    b'.tree.Charted ∧ (∀ x, b'.tree.offers x = b.tree.offers x) ∧
      ∀ x, x < b.tree.size → b'.tree.startOf x = b.tree.startOf x := by
  simp only [place] at hok
  split at hok
  · rename_i tree happend
    cases hok
    have hleads := append_leads h hparent hchild hne happend
    have hhung : Hung parent child b.tree tree :=
      ⟨h.wellFormed, hleads.parsed.wellFormed, hchild.toDetached, hne, happend⟩
    dsimp only
    split
    · rename_i hoffers
      have hhangs := append_hangs (fun _ => True) happend hparent hroot hle
      have happart' := happart.of_before h.wellFormed hhung.wellFormed' hhangs.before
      refine ⟨hhung.registerChoice_charted hcharted hoffers fun doc hdoc c a hnests => ?_, fun x => ?_, fun x _ => ?_⟩
      · have hmodule := happart'.le_of_mem_ancestors hhung.wellFormed' hle hdoc
        refine hlast c (happart.le_of_ancestor h.wellFormed hnests.mem_ancestors hmodule) ?_ hnests.1
        rintro rfl
        exact hhung.not_nestsIn doc a hnests
      · exact (registerChoice_keeps tree child x).1.trans (offers_append happend x)
      · exact (registerChoice_keeps tree child x).2.trans (startOf_append happend x)
    · rename_i hoffers
      refine ⟨hhung.charted hcharted fun doc a hnests => hoffers ?_, offers_append happend, fun x _ =>
        startOf_append happend x⟩
      exact (offers_append happend child).symm.trans hnests.1
  · cases hok
  · obtain ⟨tree, happend, rfl⟩ := append_eq_ok hok
    exact append_orphan_charted h hcharted hchild (orphan_fresh site position) rfl rfl happend

theorem setValue_retains (howner : owner < b.tree.size) (hcomment : (b.tree.kind owner).isComment = false)
    (hdelimiter : (b.tree.get owner).delimiter.isValue) (value : Value) :
    Retains b.tree (b.setValue site owner value).tree := by
  have hoffers : b.tree.offers owner = false := by
    rw [offers]
    rcases isValue_cases hdelimiter with hequal | hdouble
    · rw [hequal]
      rfl
    · rw [hdouble]
      rfl
  cases value with
  | text content kind => exact .modify _ owner fun _ => rfl
  | bare content => exact .modify _ owner fun _ => rfl
  | reference head =>
    have hshows : Shows site owner [.reference head] [b.tree.size] b.tree
        (b.addReference site owner head).2.tree := .cons ⟨b.tree, rfl⟩ (.nil site owner _)
    exact hshows.retains howner hcomment hoffers (fun c hc => (mem_singleton.mp hc).symm.le) fun _ => rfl
  | segments parts hparts =>
    have hreferences := addReferences_shows b site owner parts
    obtain ⟨htexts, hsub⟩ := addTexts_shows hreferences.all
    obtain ⟨hmakes, hnew⟩ := addReferences_makes h site owner parts
    obtain ⟨-, hids⟩ := addTexts_makes hmakes.parsed site parts hmakes.nodup hmakes.loose hmakes.part
    have hshows : Shows site owner parts _ b.tree _ := hreferences.trans htexts hsub
    have htree : (b.setValue site owner (.segments parts hparts)).tree = _ := modify_modify ..
    rw [htree]
    refine hshows.retains howner hcomment hoffers (fun c hc => ?_) fun _ => rfl
    rcases hids c hc with hreference | hle
    · exact hnew c hreference
    · exact hreferences.size_le.trans hle

theorem giveValue_retains (site : Site) (howner : owner < b.tree.size)
    (hcomment : (b.tree.kind owner).isComment = false)
    (hdelimiter : (b.tree.get owner).delimiter = item.head.delimiter) :
    Retains b.tree ((item.value.elim (b.reportAll site item.notes)
      ((b.reportAll site item.notes).setValue site owner)).modify owner fun pair =>
        { pair with span := ⟨pair.span.start, item.stop⟩ }).tree := by
  have htree := tree_reportAll b site item.notes
  generalize b.reportAll site item.notes = reported at htree ⊢
  rw [← htree] at h howner hcomment hdelimiter ⊢
  refine Retains.trans ?_ (.modify _ owner fun _ => rfl)
  cases hvalue : item.value with
  | none => exact .refl _
  | some value =>
    refine setValue_retains h howner hcomment ?_ value
    rw [hdelimiter, ← item.announced, hvalue]
    rfl

theorem attach_charted (hmodule : site.root ∈ modules) (hcharted : b.tree.Charted) (happart : b.tree.Apart site.root)
    (hparent : parent < b.tree.size) (hroot : site.root ≤ parent)
    (hchild : b.tree.Loose child) (hle : site.root ≤ child) (hne : parent ≠ child)
    (hspan : (b.tree.get child).span.LiesIn stop gs rest)
    (hlast : ∀ c, site.root ≤ c → c ≠ child → b.tree.offers c → b.tree.startOf c < b.tree.startOf child)
    (hok : b.attach site parent child position = .ok b') :
    b'.tree.Charted ∧ (∀ x, b'.tree.offers x = b.tree.offers x) ∧
      ∀ x, x < b.tree.size → b'.tree.startOf x = b.tree.startOf x := by
  rw [attach, bind_eq_ok] at hok
  obtain ⟨⟨target, mid⟩, htarget, hok⟩ := hok
  obtain ⟨hleads, hlt, hloose, htargetNe⟩ := redirect_leads h hmodule hparent hchild hne htarget
  have hretains := redirect_retains htarget
  obtain ⟨hbefore, htargetRoot⟩ : (∀ x, x < site.root → mid.tree.get x = b.tree.get x) ∧ site.root ≤ target := by
    rcases redirect_hangs h hmodule happart hroot hspan htarget with ⟨rfl, hle⟩ | ⟨rfl, -, -, hhangs⟩
    · exact ⟨fun _ _ => rfl, hle⟩
    · exact ⟨hhangs.before, (h.module_lt_size hmodule).le⟩
  have hmid := hleads.parsed.wellFormed
  obtain ⟨hplaced, hoffers, hstart⟩ := place_charted hleads.parsed (hcharted.retains hretains h.wellFormed hmid)
    (happart.of_before h.wellFormed hmid hbefore) hlt htargetRoot hloose hle htargetNe (fun c hc hcne hoffers => by
      rw [hretains.offers_all] at hoffers
      rw [hretains.start_old hchild.lt_size, hretains.start_old (lt_size_of_offers hoffers)]
      exact hlast c hc hcne hoffers) hok
  refine ⟨hplaced, fun x => (hoffers x).trans (hretains.offers_all x), fun x hx => ?_⟩
  exact (hstart x (hx.trans_le hretains.size_le)).trans (hretains.start_old hx)

theorem addPair_charted (hmodule : site.root ∈ modules) (happart : b.tree.Apart site.root) (hcharted : b.tree.Charted)
    (hstarts : b.tree.StartsBefore site.root (here stop gs).offset) (hparent : parent < b.tree.size)
    (hroot : site.root ≤ parent) {inGroup : Bool} {id : PairId}
    (hlies : item.LiesIn stop gs rest) {m : Nat} (hm : (here stop gs).offset < m)
    (hok : b.addPair site parent inGroup item = .ok (id, b')) :
    b'.tree.Charted ∧ b'.tree.StartsBefore site.root m := by
  have hwf' := (addPair_grows h hmodule hparent hok).1.parsed.wellFormed
  obtain ⟨body, hhead, hbody, -⟩ := hlies.exists_body
  simp only [addPair] at hok
  rw [bind_eq_ok] at hok
  obtain ⟨c, hattach, hok⟩ := hok
  cases hok
  obtain ⟨hcomment, hchoices⟩ : (b.pairFor site parent inGroup item.head).kind.isComment = false ∧
    ∀ choices, (b.pairFor site parent inGroup item.head).kind.choices? = some choices → choices = .empty :=
      makePair_begins ..
  generalize hpair : b.pairFor site parent inGroup item.head = pair at hattach hcomment hchoices
  have hfresh : pair.Fresh := hpair ▸ makePair_fresh ..
  have hspan : pair.span = item.head.span := by
    rw [← hpair]
    rfl
  have hadd := add_leads h hfresh
  have hloose := loose_add b.tree hfresh
  have hrootLe : site.root ≤ b.tree.size := hroot.trans hparent.le
  have hget : (b.add pair).2.tree.get b.tree.size = pair := get_add_self ..
  have hother : ∀ x, x ≠ b.tree.size → (b.add pair).2.tree.get x = b.tree.get x := fun x hx =>
    get_add_of_ne b.tree pair hx
  -- the new pair begins where the choices before it end
  have hself : (b.add pair).2.tree.startOf b.tree.size = (here stop gs).offset := by
    rw [startOf, hget, hspan, hhead.span_eq]
  have hold : ∀ x, site.root ≤ x → x ≠ b.tree.size → (b.add pair).2.tree.offers x = true →
      (b.add pair).2.tree.startOf x < (here stop gs).offset := by
    intro x hx hne hoffers
    rw [offers, hother x hne] at hoffers
    rw [startOf, hother x hne]
    exact hstarts x hx hoffers
  have hparentLt := hparent.trans_le hadd.size_le
  have hne : parent ≠ b.tree.size := hparent.ne
  have hattached := attach_leads hadd.parsed hmodule hparentLt hloose hne hattach
  have haddApart : (b.add pair).2.tree.Apart site.root :=
    happart.of_before h.wellFormed hadd.parsed.wellFormed fun x hx =>
      hother x (hx.trans_le hrootLe).ne
  have hlies' : ((b.add pair).2.tree.get b.tree.size).span.LiesIn stop gs body := by
    rw [hget, hspan]
    exact hhead.fills.liesIn
  obtain ⟨hplaced, hoffers, hstart⟩ := attach_charted hadd.parsed hmodule
    (hcharted.add h.wellFormed hfresh.parent_eq hfresh.held_eq hchoices) haddApart hparentLt hroot hloose hrootLe
    hne hlies' (fun x hx hxne hoffers => hself ▸ hold x hx hxne hoffers) hattach
  have hdelimiter : (c.tree.get b.tree.size).delimiter = item.head.delimiter := by
    rw [Pair.delimiter_eq_of_unplaced (hattached.unplaced_eq _ hloose.lt_size), hget, ← hpair]
    rfl
  have hcomment' : (c.tree.kind b.tree.size).isComment = false := by
    have hkind : (c.tree.kind b.tree.size).unplaced = pair.kind.unplaced := by
      have hself := hattached.unplaced_eq _ hloose.lt_size
      rw [hget] at hself
      exact congrArg Pair.kind hself
    rw [← isComment_unplaced, hkind, isComment_unplaced]
    exact hcomment
  have hretains := giveValue_retains hattached.parsed site
    (hloose.lt_size.trans_le hattached.size_le) hcomment' hdelimiter
  have hstarts' : c.tree.StartsBefore site.root m := by
    intro x hx hup
    rw [hoffers] at hup
    rw [hstart x (lt_size_of_offers hup)]
    by_cases hnew : x = b.tree.size
    · rw [hnew, hself]
      exact hm
    · exact (hold x hx hnew hup).trans hm
  exact ⟨hplaced.retains hretains hattached.parsed.wellFormed hwf', hstarts'.retains hretains⟩

end

/-- Documents keep their choices as they are nested, and all choices of the module were read before `gs`. -/
structure Charts (cursor : Cursor) (site : Site) (gs : List Glyph) (t : PairTree) : Prop where
  charted : t.Charted
  starts : t.StartsBefore site.root (Glyph.here cursor.stop gs).offset
  suffix : gs <:+ cursor.ahead

theorem Charts.of_suffix (h : Charts cursor site gs t) (hrest : rest <:+ gs) : Charts cursor site rest t where
  charted := h.charted
  starts := h.starts.mono (notAfter_of_suffix hrest h.suffix).1.offset_le
  suffix := hrest.trans h.suffix

theorem Charts.retains {gs : List Glyph} (h : Charts cursor site gs t)
    (hretains : Retains t t') (hwf : t.WellFormed) (hwf' : t'.WellFormed) : Charts cursor site gs t' where
  charted := h.charted.retains hretains hwf hwf'
  starts := h.starts.retains hretains
  suffix := h.suffix

theorem charts_carried (cursor : Cursor) (hmodule : site.root ∈ modules) :
    Carries modules cursor.stop site (Charts cursor site) where
  skip h hrest := h.of_suffix hrest
  orphan {_ b} position h hparsed :=
    h.retains (addOrphan_retains b site position) hparsed.wellFormed (hparsed.add (orphan_fresh ..)).wellFormed
  comment h hparsed hparent hlies hok :=
    (h.of_suffix hlies.suffix).retains (addComment_retains hok) hparsed.wellFormed
      (addComment_leads hparsed hparent hok).parsed.wellFormed
  pair h hparsed happart hparent hroot hlies hok := by
    obtain ⟨body, hhead, hbody, -⟩ := hlies.exists_body
    have hrest := hbody.trans hhead.suffix
    have hoffset := (notAfter_of_suffix hrest h.suffix).2 (hbody.length_le.trans_lt hhead.length_lt)
    obtain ⟨hcharted, hstarts⟩ := addPair_charted hparsed hmodule happart h.charted h.starts hparent hroot
      hlies hoffset hok
    exact ⟨hcharted, hstarts, hrest.trans h.suffix⟩

theorem mark_gatherItems (hwf : t.WellFormed) (id x : PairId) : ((gatherItems t id).get x).mark = (t.get x).mark := by
  have hparent : ((gatherItems t id).get x).parent = (t.get x).parent := parent?_gatherItems hwf id x
  have hplace : ∀ pair, { (toValuePlace pair).mark with parent := none } = { pair.mark with parent := none } := by
    intro pair
    unfold toValuePlace
    split
    · rename_i hkind
      simp [Pair.mark, hkind, choices?, isComment]
    · rfl
  have hrest := gatherItems_eq_of_keeps (fun pair => { pair.mark with parent := none }) t id x (fun _ _ => rfl)
    hplace fun _ _ _ _ _ => rfl
  have hsplit : ∀ pair : Pair, pair.mark = { { pair.mark with parent := none } with parent := pair.parent } :=
    fun _ => rfl
  rw [hsplit, hsplit (t.get x), hrest, hparent]

theorem finishPair_retains (hwf : t.WellFormed) (id : PairId) : Retains t (finishPair t id) := by
  refine finishPair_cases id (fun _ _ _ => ?_) (fun _ _ => .modify t id fun _ => rfl) (.refl t)
  refine .of_marks ?_ (mark_gatherItems hwf id)
  simp only [gatherItems, setItems, size_modify, size_setParents, size_adoptChildren, size_foldl_modify,
    size_takeChildren]

theorem finish_retains (h : b.tree.Parsed modules) (site : Site) : Retains b.tree (b.finish site).tree := by
  have hall : ∀ (ids : List PairId) {t : PairTree}, t.Parsed modules → Retains t (ids.foldl finishPair t) := by
    intro ids
    induction ids with
    | nil => exact fun _ => .refl _
    | cons id ids ih =>
      exact fun ht => (finishPair_retains ht.wellFormed id).trans (ih (finishPair_parsed ht id))
  exact hall _ h

end Builder

namespace ModuleSet

open PairTree

/-- Reading one more text keeps the choices of all documents as they are nested. -/
theorem parse_charted {set set' : ModuleSet} {file : String} {format : Format} {text : List Char} (h : set.Parsed)
    (hcharted : set.tree.Charted) (hok : (set.parse file format text).result = .ok set') : set'.tree.Charted := by
  have hwf' := (h.parse hok).tree_parsed.wellFormed
  obtain ⟨b, hlines, rfl⟩ := parse_eq_ok hok
  have hmodule := set.root_mem_modules file format
  have hahead := opened_ahead h file format
  have hretains : Retains set.tree (set.opened file format).tree := by
    rw [tree_opened]
    refine add_retains rfl rfl fun choices hchoices => ?_
    cases hchoices
  have hstart : Builder.Charts (ofList text) (set.nextSite file format) (ofList text).ahead
      (set.opened file format).tree := by
    refine ⟨hcharted.retains hretains h.tree_parsed.wellFormed hahead.parsed.wellFormed, fun x hx hoffers => ?_,
      suffix_refl _⟩
    -- no pair of the new module is a choice yet
    rw [hretains.offers_all] at hoffers
    exact absurd (lt_size_of_offers hoffers) (Nat.not_lt.mpr hx)
  obtain ⟨-, hlast, hcarries⟩ := hahead.addLines_adds hmodule (Line.ofText_inOrder text) hlines
  have hcharts := hcarries (Builder.charts_carried _ hmodule) hstart
  exact hcharts.charted.retains (Builder.finish_retains hlast.parsed _) hlast.parsed.wellFormed hwf'

end ModuleSet

theorem PairTree.HoldsChoices.count_eq {t : PairTree} {doc : PairId} {choices : ChoiceTree}
    (h : t.HoldsChoices doc choices)
    (hwf : t.WellFormed) : choices.count = ((List.range t.size).filter fun c =>
      t.offers c && t.enclosingDocument? c == some doc).length := by
  have hnodes : choices.nodes = none :: choices.edges.map Prod.snd := by rw [ChoiceTree.nodes, h.root_eq]
  have hkept : (choices.edges.map Prod.snd).Nodup := (nodup_cons.mp (hnodes ▸ h.nodup)).2
  have hmem : ∀ choice, choice ∈ choices.edges.map Prod.snd ↔
      choice ∈ ((List.range t.size).filter fun c => t.offers c && t.enclosingDocument? c == some doc).map some := by
    intro choice
    rw [h.mem_kept_iff hwf]
    simp only [mem_map, mem_filter, mem_range, Bool.and_eq_true, beq_iff_eq]
    constructor
    · rintro ⟨c, rfl, hoffers, hdoc⟩
      exact ⟨c, ⟨lt_size_of_offers hoffers, hoffers, hdoc⟩, rfl⟩
    · rintro ⟨c, ⟨-, hoffers, hdoc⟩, rfl⟩
      exact ⟨c, rfl, hoffers, hdoc⟩
  have hcounted := (nodup_range (n := t.size)).filter fun c => t.offers c && t.enclosingDocument? c == some doc
  have hperm := (perm_ext_iff_of_nodup hkept (hcounted.map (fun _ _ => Option.some.inj))).mpr hmem
  simpa [ChoiceTree.count_eq_length_edges] using hperm.length_eq

namespace Session

variable {limit : Option Nat} {sources : List Source} {s : Session}

theorem charted_of_start (hok : (start limit).parseAll sources = .ok s) : s.set.tree.Charted := by
  have hempty : PairTree.empty.Charted := by
    refine ⟨fun doc choices hchoices => ?_, fun x p hp => ?_⟩
    · cases hchoices
    · cases hp
  exact start_induction (P := fun set => set.tree.Charted) hempty ModuleSet.parse_charted hok

/-- Every document keeps a choice for each pair in it that offers alternatives, nested and ordered as these
    pairs are, and nothing else. -/
theorem choices_mirror_document (hok : (start limit).parseAll sources = .ok s) {doc : PairId}
    {choices : ChoiceTree} {implicit : Bool} (hdoc : s.set.tree.kind doc = .document choices implicit) :
    s.set.tree.HoldsChoices doc choices ∧ choices.count = ((List.range s.set.tree.size).filter fun c =>
      s.set.tree.offers c && s.set.tree.enclosingDocument? c == some doc).length := by
  have hholds := (charted_of_start hok).holds doc choices (by rw [hdoc]; rfl)
  exact ⟨hholds, hholds.count_eq (parsed_of_start hok).tree_parsed.wellFormed⟩

/-- Choices below a choice, one of them behind an element, and a second document with a choice of its own. -/
def nestedChoices : Source where
  name := "a.pxml"
  format := .xml
  text := ("!d:\n    a::\n        b:\n            c =: p = x\n        e::\n            = y\n    f::\n" ++
    "        g:\n!h:\n    k::\n        m:\n").toList

/-- The choices `c` and `e` hang from `a`, and `f` stands beside `a`. -/
theorem nestedChoices_mirrored : ∃ s choices implicit, (start none).parseAll [nestedChoices] = .ok s ∧
    s.set.tree.kind 1 = .document choices implicit ∧
    choices.edges = [(none, some 2), (some 2, some 4), (some 2, some 6), (none, some 8)] ∧
    s.set.tree.NestsIn 1 4 (some 2) ∧ s.set.tree.NestsIn 1 6 (some 2) ∧ s.set.tree.startOf 4 < s.set.tree.startOf 6 ∧
    ((List.range s.set.tree.size).filter fun c =>
      s.set.tree.offers c && s.set.tree.enclosingDocument? c == some 1).length = 4 := by
  obtain ⟨s, -, hok, -, hcheck⟩ := exists_confirmed
    (show confirms none [nestedChoices] (fun parsed _ => (parsed.set.tree.kind 1).choices?.map (·.edges) =
      some [(none, some 2), (some 2, some 4), (some 2, some 6), (none, some 8)]) = true by decide +kernel)
  obtain ⟨choices, hchoices, hedges⟩ := Option.map_eq_some_iff.mp hcheck
  obtain ⟨implicit, hdoc⟩ := Kind.choices?_eq_some hchoices
  obtain ⟨hholds, hcount⟩ := choices_mirror_document hok hdoc
  have hnests : ∀ c, (some 2, some c) ∈ choices.edges → s.set.tree.NestsIn 1 c (some 2) := by
    intro c hc
    obtain ⟨c', hc', hnests⟩ := (hholds.mem_edges_iff (some 2) (some c)).mp hc
    cases hc'
    exact hnests
  have hinOrder := hholds.inOrder
  rw [hedges] at hinOrder hnests
  obtain ⟨hfour, -⟩ := List.pairwise_cons.mp (List.pairwise_cons.mp hinOrder).2
  refine ⟨s, choices, implicit, hok, hdoc, hedges, hnests 4 (by simp), hnests 6 (by simp),
    hfour (some 2, some 6) (by simp) rfl 4 rfl 6 rfl, ?_⟩
  rw [← hcount, ChoiceTree.count_eq_length_edges, hedges]
  rfl

end Session

end PairMarkup
