import PairMarkup.Proofs.Construction.Values

namespace PairMarkup

open List Relation Kind

/-- The file that a pair is from, by name and by number. -/
def Pair.origin (pair : Pair) : String × Nat := (pair.file, pair.fileIndex)

def Site.origin (site : Site) : String × Nat := (site.file, site.fileIndex)

/-- The notes that an item of a line brings. -/
def Item.notes : Item → List Note
  | .pair item => item.notes
  | .note n => [n]
  | .comment c => c.notes
  | .separator | .openGroup | .closeGroup => []

def Line.notes : Line → List Note
  | .comments _ cs => cs.flatMap Comment.notes
  | .rejected note => [note]
  | .content _ _ items => items.flatMap Item.notes

/-- What of a pair decides whether others may be put into it, and where it may be put itself. -/
structure Pair.Standing where
  isComment : Bool
  isNamespaceDefinition : Bool
  delimiter : Delimiter
  valueKind : ValueKind

def Pair.standing (pair : Pair) : Pair.Standing :=
  ⟨pair.kind.isComment, pair.kind.isNamespaceDefinition, pair.delimiter, pair.valueKind⟩

theorem Pair.standing_mapChoices (f : ChoiceTree → ChoiceTree) (pair : Pair) :
    (pair.mapChoices f).standing = pair.standing := by
  unfold mapChoices
  split
  · rename_i hkind
    simp only [standing, hkind, isComment, isNamespaceDefinition]
  · rfl

namespace PairTree

/-- One stroke of building. All pairs are from one file, and those from `n` on may be given values. -/
inductive Stroke (origin : String × Nat) (n : Nat) (t : PairTree) : PairTree → Prop
  | make {pair : Pair} : pair.children = [] → pair.origin = origin → Stroke origin n t (t.add pair).2
  | hang {parent child : PairId} {t' : PairTree} : child < t.size → t.append parent child = .ok t' →
      Stroke origin n t t'
  | adjust (id : PairId) {f : Pair → Pair} : (∀ pair, (f pair).standing = pair.standing) →
      (∀ pair, (f pair).children = pair.children) → (∀ pair, (f pair).origin = pair.origin) →
      Stroke origin n t (t.modify id f)
  | fill {id : PairId} {f : Pair → Pair} : n ≤ id → (∀ pair, (f pair).kind = pair.kind) →
      (∀ pair, (f pair).children = pair.children) → (∀ pair, (f pair).origin = pair.origin) →
      Stroke origin n t (t.modify id f)
  | refer {owner reference : PairId} : n ≤ owner → reference < t.size →
      (t.kind reference).isNamespaceDefinition = false →
      Stroke origin n t (t.modify owner fun pair =>
        { pair with children := pair.children ++ [reference], valueKind := .pairValue })

def Strokes (origin : String × Nat) (n : Nat) : PairTree → PairTree → Prop := Relation.ReflTransGen (Stroke origin n)

variable {origin : String × Nat} {m n : Nat} {t t' t'' : PairTree}

theorem Stroke.mono (h : Stroke origin n t t') (hle : m ≤ n) : Stroke origin m t t' := by
  cases h with
  | make hchildren horigin => exact .make hchildren horigin
  | hang hchild happend => exact .hang hchild happend
  | adjust id hstanding hchildren horigin => exact .adjust id hstanding hchildren horigin
  | fill hid hkind hchildren horigin => exact .fill (hle.trans hid) hkind hchildren horigin
  | refer howner hreference hkind => exact .refer (hle.trans howner) hreference hkind

theorem Stroke.size_le (h : Stroke origin n t t') : t.size ≤ t'.size := by
  cases h with
  | make => exact (lt_size_add t _).le
  | hang _ happend => exact (size_append happend).symm.le
  | adjust | fill | refer => exact (size_modify ..).symm.le

namespace Strokes

theorem refl (t : PairTree) : Strokes origin n t t := ReflTransGen.refl

theorem single (h : Stroke origin n t t') : Strokes origin n t t' := ReflTransGen.single h

theorem trans (h : Strokes origin n t t') (h' : Strokes origin n t' t'') : Strokes origin n t t'' :=
  ReflTransGen.trans h h'

theorem mono (h : Strokes origin n t t') (hle : m ≤ n) : Strokes origin m t t' := by
  induction h with
  | refl => exact .refl t
  | tail _ hstroke ih => exact ih.tail (hstroke.mono hle)

theorem size_le (h : Strokes origin n t t') : t.size ≤ t'.size := by
  induction h with
  | refl => exact le_rfl
  | tail _ hstroke ih => exact ih.trans hstroke.size_le

/-- A pair is made and put behind the children of another one. -/
theorem add_append {pair : Pair} (hchildren : pair.children = []) (horigin : pair.origin = origin)
    {parent child : PairId} (hchild : child ≤ t.size) (h : (t.add pair).2.append parent child = .ok t') :
    Strokes origin n t t' := by
  apply (single (.make hchildren horigin)).trans (single (.hang ?_ h))
  exact hchild.trans_lt (lt_size_add t pair)

theorem setParents (t : PairTree) (ids : List PairId) (parent : Option PairId) :
    Strokes origin n t (t.setParents ids parent) := by
  induction ids generalizing t with
  | nil => exact .refl t
  | cons id ids ih =>
    have hfirst : Strokes origin n t (t.modify id fun pair => { pair with parent }) :=
      single (.adjust id (fun _ => rfl) (fun _ => rfl) fun _ => rfl)
    exact hfirst.trans (ih _)

end Strokes

end PairTree

namespace Builder

open PairTree

variable {n : Nat} {site : Site} {b b' b'' : Builder} {parent child id block : PairId} {notes notes' : List Note}
  {position : Position}

/-- The codes of what was found in the text. A block that is not expected is found in the tree. -/
def found (b : Builder) : List Code := (b.log.map (·.code)).filter (· ≠ .blockIsNotExpected)

/-- What building comes to between two lines: strokes, and reports of what is noted. The open blocks stay. -/
structure Draws (site : Site) (n : Nat) (notes : List Note) (b b' : Builder) : Prop where
  strokes : Strokes site.origin n b.tree b'.tree
  blocks_eq : b'.blocks = b.blocks
  found_eq : b'.found = b.found ++ (notes.map (·.code)).filter (· ≠ .blockIsNotExpected)

namespace Draws

theorem of_strokes {tree : PairTree} (h : Strokes site.origin n b.tree tree) : Draws site n [] b { b with tree } :=
  ⟨h, rfl, (append_nil _).symm⟩

theorem refl (b : Builder) : Draws site n [] b b := of_strokes (.refl _)

theorem trans (h : Draws site n notes b b') (h' : Draws site n notes' b' b'') :
    Draws site n (notes ++ notes') b b'' where
  strokes := h.strokes.trans h'.strokes
  blocks_eq := h'.blocks_eq.trans h.blocks_eq
  found_eq := by rw [h'.found_eq, h.found_eq, map_append, filter_append, append_assoc]

theorem strokes_behind (h : Draws site n notes b b') {tree : PairTree} (hstrokes : Strokes site.origin n b'.tree tree) :
    Draws site n notes b { b' with tree } :=
  ⟨h.strokes.trans hstrokes, h.blocks_eq, h.found_eq⟩

theorem mono (h : Draws site n notes b b') {m : Nat} (hle : m ≤ n) : Draws site m notes b b' :=
  ⟨h.strokes.mono hle, h.blocks_eq, h.found_eq⟩

theorem report (b : Builder) (note : Note) : Draws site n [note] b (b.report site note) where
  strokes := .refl _
  blocks_eq := rfl
  found_eq := by
    rw [found, Builder.report, map_append, filter_append]
    rfl

theorem reportAll (b : Builder) (notes : List Note) : Draws site n notes b (b.reportAll site notes) := by
  induction notes generalizing b with
  | nil => exact .refl b
  | cons note notes ih => exact (report b note).trans (ih _)

theorem reportUnexpected (b : Builder) (block : PairId) (span : Span) :
    Draws site n [] b (b.report site (b.blockNotExpected block span)) :=
  have h : Draws site n _ b _ := report b (b.blockNotExpected block span)
  ⟨h.strokes, h.blocks_eq, h.found_eq⟩

/-- Steps that each report what they are given notes of do so together. -/
theorem foldlM {α σ : Type} {f : σ → α → Except Halt σ} (builder : σ → Builder) {noted : α → List Note} {as : List α}
    (hstep : ∀ a ∈ as, ∀ s s', f s a = .ok s' → Draws site n (noted a) (builder s) (builder s')) {s s' : σ}
    (h : as.foldlM f s = .ok s') : Draws site n (as.flatMap noted) (builder s) (builder s') := by
  induction as generalizing s with
  | nil =>
    cases h
    exact .refl _
  | cons a as ih =>
    rw [foldlM_cons, bind_eq_ok] at h
    obtain ⟨c, hc, h⟩ := h
    exact (hstep a mem_cons_self s c hc).trans (ih (fun a ha => hstep a (mem_cons_of_mem _ ha)) h)

end Draws

theorem addComment_draws {comment : Comment} (h : b.addComment site parent comment = .ok b') :
    Draws site n comment.notes b b' := by
  obtain ⟨tree, happend, rfl⟩ := append_eq_ok h
  exact (Draws.reportAll b comment.notes).strokes_behind (.add_append rfl rfl le_rfl happend)

theorem registerChoice_strokes {origin : String × Nat} (t : PairTree) (id : PairId) :
    Strokes origin n t (registerChoice t id) := by
  unfold registerChoice
  split
  · exact .refl t
  · exact .single (.adjust _ (Pair.standing_mapChoices _)
      (fun pair => Pair.children_eq_of_core (Pair.mapChoices_core _ pair))
      fun pair => (congrArg Pair.origin (Pair.mapChoices_unplaced _ pair) :))

theorem redirect_draws {target : PairId} (h : b.redirect site parent child = .ok (target, b')) :
    Draws site n [] b b' := by
  simp only [redirect, implicitDocument] at h
  split at h
  · split at h
    · cases h
      exact .refl _
    · rw [bind_eq_ok] at h
      obtain ⟨c, hc, h⟩ := h
      cases h
      obtain ⟨tree, happend, rfl⟩ := append_eq_ok hc
      exact .of_strokes (b := b) (.add_append rfl rfl le_rfl happend)
  · cases h
    exact .refl _

theorem place_draws (hchild : child < b.tree.size)
    (h : b.place site parent child position = .ok b') : Draws site n [] b b' := by
  simp only [place] at h
  split at h
  · rename_i tree happend
    cases h
    refine .of_strokes (Strokes.trans (.single (.hang hchild happend)) ?_)
    split
    · exact registerChoice_strokes tree child
    · exact .refl tree
  · cases h
  · obtain ⟨tree, happend, rfl⟩ := append_eq_ok h
    exact (Draws.reportUnexpected b _ _).strokes_behind (.add_append rfl rfl hchild.le happend)

theorem attach_draws (hchild : child < b.tree.size)
    (h : b.attach site parent child position = .ok b') : Draws site n [] b b' := by
  rw [attach, bind_eq_ok] at h
  obtain ⟨⟨target, c⟩, htarget, hplace⟩ := h
  have hredirect : Draws site n [] b c := redirect_draws htarget
  exact hredirect.trans (place_draws (hchild.trans_le hredirect.strokes.size_le) hplace)

theorem add_draws (b : Builder) (pair : Pair) (hchildren : pair.children = []) (horigin : pair.origin = site.origin) :
    Draws site n [] b (b.add pair).2 :=
  .of_strokes (.single (.make hchildren horigin))

theorem addReferences_draws (b : Builder) (site : Site) (owner : PairId) (parts : List Segment) :
    Draws site n [] b (b.addReferences site owner parts).2 := by
  induction parts generalizing b with
  | nil => exact .refl _
  | cons part parts ih =>
    cases part with
    | text content span => exact ih b
    | reference head => exact (b.add_draws _ rfl rfl).trans (ih _)

theorem addTexts_draws (b : Builder) (site : Site) (parts : List Segment) (references : List PairId) :
    Draws site n [] b (b.addTexts site parts references).2 := by
  induction parts generalizing b references with
  | nil => exact .refl _
  | cons part parts ih =>
    cases part with
    | text content span => exact (b.add_draws _ rfl rfl).trans (ih _ _)
    | reference head => exact ih b _

theorem setValue_draws {owner : PairId} (howner : n ≤ owner) (b : Builder) (site : Site) (value : Value) :
    Draws site n [] b (b.setValue site owner value) := by
  have hfill : ∀ {f : Pair → Pair} (t : PairTree), (∀ pair, (f pair).kind = pair.kind) →
      (∀ pair, (f pair).children = pair.children) → (∀ pair, (f pair).origin = pair.origin) →
      Strokes site.origin n t (t.modify owner f) := fun _ hkind hchildren horigin =>
    .single (.fill howner hkind hchildren horigin)
  cases value with
  | text content kind => exact .of_strokes (hfill _ (fun _ => rfl) (fun _ => rfl) fun _ => rfl)
  | bare content => exact .of_strokes (hfill _ (fun _ => rfl) (fun _ => rfl) fun _ => rfl)
  | reference found =>
    generalize hpair : site.format.makePair site.file site.fileIndex b.tree ⟨owner, true, false⟩ found.head = pair
    have husage : pair.kind.isAliasUsage ∨ pair.kind.isParameter :=
      hpair ▸ makePair_isUsage site.format site.file site.fileIndex b.tree owner found
    have hmade : Strokes site.origin n b.tree (b.tree.add pair).2 :=
      .single (.make (by rw [← hpair]; rfl) (by rw [← hpair]; rfl))
    have hparent := hmade.trans (.setParents (b.tree.add pair).2 [b.tree.size] (some owner))
    have hlt : b.tree.size < ((b.tree.add pair).2.setParents [b.tree.size] (some owner)).size := by
      rw [size_setParents]
      exact lt_size_add b.tree pair
    have hkind : (((b.tree.add pair).2.setParents [b.tree.size] (some owner)).kind b.tree.size).isNamespaceDefinition =
        false := by
      rw [kind, setParents_eq_of_keeps (fun pair => pair.kind) _ _ _ _ fun _ _ => rfl, get_add_self]
      cases hpairKind : pair.kind <;> simp [hpairKind, isAliasUsage, isParameter] at husage <;> rfl
    simp only [setValue, addReference, hpair]
    exact .of_strokes (hparent.trans (.single (.refer howner hlt hkind)))
  | segments parts hparts =>
    refine Draws.strokes_behind ((addReferences_draws b site owner parts).trans (addTexts_draws _ site parts _)) ?_
    apply (Strokes.setParents _ _ (some owner)).trans
    apply Strokes.trans (hfill _ _ _ _) (hfill _ _ _ _)
    all_goals exact fun _ => rfl

/-- Whatever is put into the pair that an item makes is put there by later items. -/
theorem addPair_draws {inGroup : Bool} {item : PairItem} (h : b.addPair site parent inGroup item = .ok (id, b')) :
    id = b.tree.size ∧ Draws site b.tree.size item.notes b b' ∧ (item.value = none →
        Strokes site.origin (b.tree.size + 1) (b.tree.add (b.pairFor site parent inGroup item.head)).2 b'.tree) := by
  simp only [addPair] at h
  rw [bind_eq_ok] at h
  obtain ⟨c, hattach, h⟩ := h
  cases h
  have hadded : ∀ {n}, Draws site n item.notes (b.add (b.pairFor site parent inGroup item.head)).2
      (c.reportAll site item.notes) :=
    (attach_draws (lt_size_add b.tree _) hattach).trans (.reportAll c item.notes)
  have hspan : ∀ {n} (t : PairTree), Strokes site.origin n t (t.modify b.tree.size fun pair =>
      { pair with span := ⟨pair.span.start, item.stop⟩ }) := fun t =>
    .single (.adjust _ (fun _ => rfl) (fun _ => rfl) fun _ => rfl)
  refine ⟨rfl, ?_, fun hnone => ?_⟩
  · refine Draws.strokes_behind ?_ (hspan _)
    have hmade : Draws site b.tree.size item.notes b (c.reportAll site item.notes) :=
      (b.add_draws (b.pairFor site parent inGroup item.head) rfl rfl).trans hadded
    cases hvalue : item.value with
    | none => exact hmade
    | some value =>
      have hset := hmade.trans (setValue_draws (le_refl b.tree.size) (c.reportAll site item.notes) site value)
      rwa [append_nil] at hset
  · rw [hnone]
    exact hadded.strokes.trans (hspan _)

theorem addItem_draws {state state' : LineState} {item : Item}
    (h : b.addItem site block state item = .ok (b', state')) :
    Draws site 0 item.notes b b' := by
  cases item with
  | separator | openGroup | closeGroup =>
    cases h
    exact .refl b
  | note note =>
    cases h
    exact .report b note
  | comment comment =>
    rw [addItem, bind_eq_ok] at h
    obtain ⟨c, hcomment, h⟩ := h
    cases h
    exact addComment_draws hcomment
  | pair item =>
    rw [addItem, bind_eq_ok] at h
    obtain ⟨⟨id, c⟩, hpair, h⟩ := h
    cases h
    exact (addPair_draws hpair).2.1.mono (Nat.zero_le _)

theorem addItems_draws {state : LineState} {items : List Item} (h : b.addItems site block items = .ok (b', state)) :
    Draws site 0 (items.flatMap Item.notes) b b' :=
  Draws.foldlM Prod.fst (fun _ _ _ _ hstep => addItem_draws hstep) h

theorem lineBlock_draws (b : Builder) (site : Site) (depth : Nat) (lead : Span) :
    Draws site n [] b (b.lineBlock site depth lead).2 := by
  simp only [lineBlock]
  split
  · exact (Draws.reportUnexpected b _ lead).trans (add_draws _ _ rfl rfl)
  · exact .refl b

theorem addComments_draws {depth : Nat} {comments : List Comment}
    (h : addLine site b (.comments depth comments) = .ok b') : Draws site n (comments.flatMap Comment.notes) b b' :=
  Draws.foldlM id (fun _ _ _ _ hstep => addComment_draws hstep) h

theorem addLine_draws {line : Line} (h : addLine site b line = .ok b') :
    Draws site 0 line.notes b { b' with blocks := b.blocks } := by
  cases line with
  | comments depth comments =>
    have hdraws : Draws site 0 (comments.flatMap Comment.notes) b b' := addComments_draws h
    exact ⟨hdraws.strokes, rfl, hdraws.found_eq⟩
  | rejected note =>
    cases h
    exact .report b note
  | content depth lead items =>
    simp only [addLine] at h
    rw [bind_eq_ok] at h
    obtain ⟨⟨c, state⟩, hitems, h⟩ := h
    cases h
    have hdraws := (b.lineBlock_draws site depth lead).trans (addItems_draws hitems)
    exact ⟨hdraws.strokes, rfl, hdraws.found_eq⟩

end Builder

end PairMarkup
