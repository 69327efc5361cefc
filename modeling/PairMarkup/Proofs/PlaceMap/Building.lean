import PairMarkup.Proofs.PlaceMap.Reading
import PairMarkup.Proofs.Tree.Shape
import PairMarkup.Session

namespace PairMarkup

open List Text Diagnostic

/-- The same for trees in the making. Other blocks may be open, and something may have been found before. -/
structure BuilderMap extends PlaceMap where
  zero_eq : lineOf 0 = 0 ∧ columnOf 0 = 0 ∧ offsetOf 0 = 0
  blocksOf : List PairId → List PairId
  earlier : List Diagnostic

theorem shown_kept (c : Char) : c = c ∨ isLineBreak c = true ∧ isLineBreak c = true := .inl rfl

/-- Everything stays where it is, and something has been found before. -/
def BuilderMap.behind (earlier : List Diagnostic) : BuilderMap where
  lineOf n := n
  columnOf n := n
  offsetOf n := n
  shownOf c := c
  shownOf_eq := shown_kept
  zero_eq := ⟨rfl, rfl, rfl⟩
  blocksOf blocks := blocks
  earlier := earlier

/-- All places are left out, and which blocks are open. -/
def unplacing : BuilderMap where
  lineOf _ := 0
  columnOf _ := 0
  offsetOf _ := 0
  shownOf c := c
  shownOf_eq := shown_kept
  zero_eq := ⟨rfl, rfl, rfl⟩
  blocksOf _ := []
  earlier := []

namespace Text

/-- A carriage return counts as a line feed. -/
def plainBreak (c : Char) : Char := if c = '\r' then '\n' else c

def plainBreaks (text : String) : String := String.ofList (text.toList.map plainBreak)

theorem plainBreak_eq (c : Char) : plainBreak c = c ∨ isLineBreak c ∧ isLineBreak (plainBreak c) := by
  unfold plainBreak
  split
  · rename_i hc
    exact .inr ⟨hc ▸ rfl, rfl⟩
  · exact .inl rfl

end Text

/-- All that is read and built, without offsets and with plain line breaks. -/
def blurring : BuilderMap where
  lineOf n := n
  columnOf n := n
  offsetOf _ := 0
  shownOf := Text.plainBreak
  shownOf_eq := Text.plainBreak_eq
  zero_eq := ⟨rfl, rfl, rfl⟩
  blocksOf blocks := blocks
  earlier := []

namespace PlaceMap

variable (r : PlaceMap)

def pair (p : Pair) : Pair := { p with span := r.span p.span, nameSpan := r.span p.nameSpan }

def tree (t : PairTree) : PairTree := ⟨t.pairs.map r.pair⟩

def diagnostic (d : Diagnostic) : Diagnostic where
  code := d.code
  message := if d.code = .unexpectedCharacter then r.text d.message else d.message
  file := d.file
  fileIndex := d.fileIndex
  span := r.span d.span
  origin := d.origin

def fault : Fault → Fault
  | .namespaceDefinitionOutOfOrder name line column =>
    .namespaceDefinitionOutOfOrder name (r.lineOf line) (r.columnOf column)
  | .childrenNotAllowed kind line column => .childrenNotAllowed kind (r.lineOf line) (r.columnOf column)

def attempt : Except Fault PairTree → Except Fault PairTree
  | .error fault => .error (r.fault fault)
  | .ok tree => .ok (r.tree tree)

end PlaceMap

namespace BuilderMap

variable (r : BuilderMap)

def log (ds : List Diagnostic) : List Diagnostic := r.earlier ++ ds.map r.diagnostic

def builder (b : Builder) : Builder := ⟨r.tree b.tree, r.blocksOf b.blocks, r.log b.log⟩

/-- What is halted or given, the latter moved by `k`. -/
def outcome {α : Type} (k : α → α) : Except Halt α → Except Halt α
  | .error halt => .error ⟨r.fault halt.fault, r.log halt.log⟩
  | .ok result => .ok (k result)

theorem pair_default : r.pair default = default := by
  have hposition : r.position default = default := by
    obtain ⟨hline, hcolumn, hoffset⟩ := r.zero_eq
    change Position.mk (r.lineOf 0) (r.columnOf 0) (r.offsetOf 0) = ⟨0, 0, 0⟩
    rw [hline, hcolumn, hoffset]
  have hspan : r.span default = default := by
    change Span.mk (r.position default) (r.position default) = _
    rw [hposition]
    rfl
  change ({ (default : Pair) with span := r.span default, nameSpan := r.span default } : Pair) = default
  rw [hspan]
  rfl

end BuilderMap

namespace Code

variable (r : PlaceMap) {mark : List Char}

theorem isPrefixOf_shownOf (hmark : ∀ c ∈ mark, isLineBreak c = false)
    (text : List Char) : mark.isPrefixOf (text.map r.shownOf) = mark.isPrefixOf text := by
  induction mark generalizing text with
  | nil => rfl
  | cons c mark ih =>
    cases text with
    | nil => rfl
    | cons d text =>
      have hc := hmark c mem_cons_self
      have hchar : (c == r.shownOf d) = (c == d) := by
        rcases r.shownOf_eq d with hd | ⟨hd, hshown⟩
        · rw [hd]
        · rw [beq_eq_false_iff_ne.mpr, beq_eq_false_iff_ne.mpr] <;> rintro rfl <;> simp_all
      rw [map_cons, isPrefixOf_cons_cons, isPrefixOf_cons_cons, hchar, ih fun c hc => hmark c (mem_cons_of_mem _ hc)]

theorem fill_shownOf (hmark : ∀ c ∈ mark, isLineBreak c = false) (value : List Char) (skip : Nat) (text : List Char) :
    fill mark (value.map r.shownOf) skip (text.map r.shownOf) = (fill mark value skip text).map r.shownOf := by
  fun_induction fill mark value skip text with
  | case1 => simp only [map_nil, fill]
  | case2 skip c rest ih => exact ih
  | case3 c rest hmatch ih =>
    rw [← isPrefixOf_shownOf r hmark, map_cons] at hmatch
    simp only [map_cons, fill, if_pos hmatch, ih, map_append]
  | case4 c rest hmatch ih =>
    rw [← isPrefixOf_shownOf r hmark, map_cons] at hmatch
    simp only [map_cons, fill, if_neg hmatch, ih]

theorem fillAll_shownOf (index : Nat) (arguments : List String) (text : List Char) :
    fillAll index (arguments.map r.text) (text.map r.shownOf) = (fillAll index arguments text).map r.shownOf := by
  induction arguments generalizing index text with
  | nil => rfl
  | cons argument arguments ih =>
    -- no mark holds a line break
    have hmark : ∀ c ∈ '\x7b' :: (toString index).toList ++ ['\x7d'], isLineBreak c = false := by
      intro c hc
      simp only [cons_append, mem_cons, mem_append, not_mem_nil, or_false] at hc
      rcases hc with rfl | hdigit | rfl
      · rfl
      · rw [Nat.toString_eq_ofList_toDigits, String.toList_ofList] at hdigit
        have := Nat.isDigit_of_mem_toDigits (by decide) (by decide) hdigit
        rw [← Bool.not_eq_true, isLineBreak, Bool.or_eq_true, beq_iff_eq, beq_iff_eq]
        rintro (rfl | rfl) <;> revert this <;> decide
      · rfl
    simp only [map_cons, fillAll]
    rw [← ih, ← fill_shownOf r hmark, PlaceMap.text, String.toList_ofList]

theorem format_unexpectedCharacter (arguments : List String) :
    format .unexpectedCharacter (arguments.map r.text) = r.text (format .unexpectedCharacter arguments) := by
  have htemplate : ∀ c ∈ (template .unexpectedCharacter).toList, r.shownOf c = c := by
    intro c hc
    refine (r.shownOf_eq c).resolve_right fun h => ?_
    have hnone : (template .unexpectedCharacter).toList.any isLineBreak = false := by decide +kernel
    exact Bool.false_ne_true (hnone.symm.trans (any_eq_true.mpr ⟨c, hc, h.1⟩))
  rw [format, format, PlaceMap.text, String.toList_ofList, ← fillAll_shownOf, map_congr_left htemplate, map_id']

end Code

theorem Diagnostic.of_moved (r : PlaceMap) (note : Note) (file : String) (fileIndex : Nat) (origin : Origin) :
    of (r.note note).code (r.note note).arguments file fileIndex (r.note note).span origin =
      r.diagnostic (of note.code note.arguments file fileIndex note.span origin) := by
  obtain ⟨code, arguments, span⟩ := note
  by_cases hcode : code = .unexpectedCharacter
  · subst hcode
    simp only [of, PlaceMap.note, PlaceMap.diagnostic, if_true, Code.format_unexpectedCharacter]
  · simp only [of, PlaceMap.note, PlaceMap.diagnostic, hcode, if_false]

namespace PairTree

variable {r : BuilderMap} (t : PairTree) (x : PairId) (n : Nat) (owner : PairId) (ids : List PairId) (f : Pair → Pair)
  (parent : PairId)

@[simp] theorem size_moved : (r.tree t).size = t.size := Array.size_map

@[simp] theorem get_moved : (r.tree t).get x = r.pair (t.get x) := get_map r.pair_default t x

@[simp] theorem kind_moved : (r.tree t).kind x = t.kind x := by
  rw [kind, get_moved]
  rfl

@[simp] theorem children_moved : (r.tree t).children x = t.children x := by
  rw [children, get_moved]
  rfl

@[simp] theorem parent?_moved (t : PairTree) (x : PairId) : (r.tree t).parent? x = t.parent? x := by
  rw [parent?, get_moved]
  rfl

@[simp] theorem contentChildren_moved : (r.tree t).contentChildren x = t.contentChildren x := by
  simp only [contentChildren, children_moved, kind_moved]

@[simp] theorem chain_moved (next : Option PairId) : (r.tree t).chain n next = t.chain n next := by
  fun_induction chain t n next with
  | case1 => rw [chain]
  | case2 => rw [chain]
  | case3 n x ih => rw [chain, parent?_moved, ih]

@[simp] theorem ancestors_moved : (r.tree t).ancestors x = t.ancestors x := by
  simp only [ancestors, size_moved, parent?_moved, chain_moved]

@[simp] theorem preorderTo_moved : (r.tree t).preorderTo n x = t.preorderTo n x := by
  induction n generalizing x with
  | zero => rfl
  | succ n ih =>
    have hheld : (r.pair (t.get x)).held = (t.get x).held := rfl
    rw [preorderTo, preorderTo, get_moved, hheld, funext ih]

@[simp] theorem preorder_moved : (r.tree t).preorder x = t.preorder x := by
  rw [preorder, preorder, size_moved, preorderTo_moved]

@[simp] theorem acceptsChildren_moved : (r.tree t).acceptsChildren x = t.acceptsChildren x := by
  rw [acceptsChildren, get_moved]
  rfl

@[simp] theorem hasContent_moved : (r.tree t).hasContent x = t.hasContent x := by
  simp only [hasContent, children_moved, kind_moved]

@[simp] theorem enclosingDefinition?_moved (t : PairTree) (x : PairId) :
    (r.tree t).enclosingDefinition? x = t.enclosingDefinition? x := by
  simp only [enclosingDefinition?, ancestors_moved, kind_moved]

@[simp] theorem enclosingDocument?_moved (t : PairTree) (x : PairId) :
    (r.tree t).enclosingDocument? x = t.enclosingDocument? x := by
  simp only [enclosingDocument?, ancestors_moved, kind_moved]

theorem add_moved (pair : Pair) : (r.tree t).add (r.pair pair) = (t.add pair).map id r.tree := by
  simp only [add, PlaceMap.tree, Prod.map, Array.size_map, Array.map_push, id]

/-- The changes `f` and `g` do the same, `g` to moved pairs. -/
theorem modify_moved_of {f g : Pair → Pair} (hf : ∀ p, g (r.pair p) = r.pair (f p)) :
    (r.tree t).modify x g = r.tree (t.modify x f) := by
  refine congrArg PairTree.mk (Array.ext (by simp [modify, PlaceMap.tree]) fun i _ _ => ?_)
  simp only [PlaceMap.tree, modify, Array.getElem_modify, Array.getElem_map]
  split
  · exact hf _
  · rfl

theorem modify_moved (hf : ∀ p, f (r.pair p) = r.pair (f p)) : (r.tree t).modify x f = r.tree (t.modify x f) :=
  modify_moved_of t x hf

theorem append_moved (child : PairId) : (r.tree t).append parent child = r.attempt (t.append parent child) := by
  simp only [append, get_moved, acceptsChildren_moved, hasContent_moved]
  change (if !(t.get child).kind.isComment && !t.acceptsChildren parent then _
    else if (t.get child).kind.isNamespaceDefinition && t.hasContent parent then _ else _) = _
  split
  · rfl
  · split
    · rfl
    · rw [modify_moved, modify_moved]
      · rfl
      · exact fun _ => rfl
      · exact fun _ => rfl

theorem foldl_modify_moved (hf : ∀ p, f (r.pair p) = r.pair (f p)) :
    ids.foldl (fun t x => t.modify x f) (r.tree t) = r.tree (ids.foldl (fun t x => t.modify x f) t) := by
  induction ids generalizing t with
  | nil => rfl
  | cons x ids ih => rw [foldl_cons, foldl_cons, modify_moved t x f hf, ih]

theorem setParents_moved (parent : Option PairId) :
    (r.tree t).setParents ids parent = r.tree (t.setParents ids parent) :=
  foldl_modify_moved t ids _ fun _ => rfl

theorem setValueReference_moved (reference : PairId) :
    (r.tree t).setValueReference owner reference = r.tree (t.setValueReference owner reference) := by
  rw [setValueReference, setParents_moved]
  exact modify_moved _ _ _ fun _ => rfl

theorem setItems_moved (items : List PairId) : (r.tree t).setItems owner items = r.tree (t.setItems owner items) := by
  rw [setItems, setParents_moved]
  exact modify_moved _ _ _ fun _ => rfl

theorem takeChildren_moved : (r.tree t).takeChildren x = ((t.takeChildren x).1, r.tree (t.takeChildren x).2) := by
  simp only [takeChildren, children_moved]
  rw [modify_moved, setParents_moved]
  exact fun _ => rfl

theorem adoptChildren_moved (children : List PairId) :
    (r.tree t).adoptChildren parent children = r.tree (t.adoptChildren parent children) := by
  rw [adoptChildren, setParents_moved]
  exact modify_moved _ _ _ fun _ => rfl

end PairTree

variable {r : BuilderMap} (format : Format) (tree : PairTree) (setting : Setting) (head : Head) {α β : Type}

@[simp] theorem percentKind_moved : percentKind (r.tree tree) setting = percentKind tree setting := by
  simp only [percentKind, PairTree.kind_moved, PairTree.enclosingDefinition?_moved]

theorem sharedKind?_moved : sharedKind? (r.tree tree) setting (r.head head) = sharedKind? tree setting head := by
  obtain ⟨sigil, name, delimiter, span⟩ := head
  simp only [sharedKind?, PlaceMap.head, percentKind_moved, Option.isSome_map]

theorem interpret_moved :
    format.interpret (r.tree tree) setting (r.head head) = format.interpret tree setting head := by
  have hname : (r.head head).name.map (·.text) = head.name.map (·.text) := by
    rw [PlaceMap.head, Option.map_map]
    rfl
  have hnonempty : (r.head head).nonemptyName? = head.nonemptyName? := by
    rw [Head.nonemptyName?, hname]
    rfl
  have hprefixed : (r.head head).prefixedName = head.prefixedName := by
    obtain ⟨sigil, name, delimiter, span⟩ := head
    cases name <;> rfl
  have hsigil : (r.head head).sigil = head.sigil := rfl
  simp only [Format.interpret, sharedKind?_moved, hname, hnonempty, hprefixed, hsigil]

theorem makePair_moved (file : String) (fileIndex : Nat) (tree : PairTree) (setting : Setting) (head : Head) :
    format.makePair file fileIndex (r.tree tree) setting (r.head head) =
      r.pair (format.makePair file fileIndex tree setting head) := by
  simp only [Format.makePair, interpret_moved]
  obtain ⟨sigil, name, delimiter, span⟩ := head
  cases name <;> rfl

theorem outcome_bind {f : α → α} {g : β → β} {k k' : α → Except Halt β}
    (hk : ∀ a, k' (f a) = r.outcome g (k a)) (x : Except Halt α) : r.outcome f x >>= k' = r.outcome g (x >>= k) := by
  cases x with
  | error halt => rfl
  | ok a => exact hk a

theorem outcome_foldlM {f : β → β} {g : α → α} {k : β → α → Except Halt β}
    (hk : ∀ b a, k (f b) (g a) = r.outcome f (k b a)) (as : List α) (b : β) :
    (as.map g).foldlM k (f b) = r.outcome f (as.foldlM k b) := by
  induction as generalizing b with
  | nil => rfl
  | cons a as ih =>
    rw [map_cons, foldlM_cons, foldlM_cons, hk]
    exact outcome_bind ih _

namespace Builder

open PairTree PlaceMap

variable (b : Builder) (site : Site) (block : PairId) (pair : Pair) (owner : PairId) (segments : List Segment)
  (tree : PairTree) (parent child : PairId) (position : Position)

@[simp] theorem tree_moved : (r.builder b).tree = r.tree b.tree := rfl

theorem report_moved (note : Note) : (r.builder b).report site (r.note note) = r.builder (b.report site note) := by
  simp only [report, Note.reported, BuilderMap.builder, BuilderMap.log, of_moved, map_append, append_assoc]
  rfl

theorem reportAll_moved (notes : List Note) :
    (r.builder b).reportAll site (notes.map r.note) = r.builder (b.reportAll site notes) := by
  induction notes generalizing b with
  | nil => rfl
  | cons note notes ih =>
    simp only [reportAll, map_cons, foldl_cons] at ih ⊢
    rw [report_moved, ih]

theorem add_moved : (r.builder b).add (r.pair pair) = (b.add pair).map id r.builder := by
  simp only [add, BuilderMap.builder, PairTree.add_moved]
  rfl

theorem append_moved : (r.builder b).append parent child = r.outcome r.builder (b.append parent child) := by
  simp only [append, BuilderMap.builder, PairTree.append_moved]
  cases b.tree.append parent child <;> rfl

theorem addOrphan_moved :
    (r.builder b).addOrphan site (r.position position) = (b.addOrphan site position).map id r.builder :=
  b.add_moved (.bare .element (.point position) site.file site.fileIndex)

theorem blockNotExpected_moved (id : PairId) (span : Span) :
    (r.builder b).blockNotExpected id (r.span span) = r.note (b.blockNotExpected id span) := by
  simp only [blockNotExpected, BuilderMap.builder, get_moved]
  rfl

theorem addComment_moved (comment : Comment) : (r.builder b).addComment site parent (r.comment comment) =
      r.outcome r.builder (b.addComment site parent comment) := by
  have hnotes : (r.comment comment).notes = comment.notes.map r.note := by
    obtain ⟨text, span, isClosed⟩ := comment
    cases isClosed <;> rfl
  unfold addComment
  rw [hnotes, reportAll_moved]
  exact (congrArg (fun added => added.2.append parent added.1) (add_moved _ (site.commentPair comment))).trans
    (append_moved _ _ _)

theorem implicitDocument_moved (span : Span) : (r.builder b).implicitDocument site (r.span span) =
      r.outcome (Prod.map id r.builder) (b.implicitDocument site span) := by
  unfold implicitDocument
  rw [tree_moved, children_moved]
  simp only [kind_moved]
  cases (b.tree.children site.root).reverse.find? fun id => isImplicitDocument (b.tree.kind id) with
  | some id => rfl
  | none =>
    have hpair : (r.builder b).implicitPair site (r.span span) = r.pair (b.implicitPair site span) := by
      rw [implicitPair, tree_moved, get_moved]
      rfl
    dsimp only
    rw [hpair, add_moved, Prod.map_snd, append_moved]
    exact outcome_bind (by intro; rfl) _

theorem registerChoice_moved (id : PairId) : registerChoice (r.tree tree) id = r.tree (registerChoice tree id) := by
  unfold registerChoice
  rw [enclosingDocument?_moved]
  cases tree.enclosingDocument? id with
  | none => rfl
  | some document =>
    have hchoice : (fun a => ((r.tree tree).get a).delimiter.isChoice) =
        fun a => (tree.get a).delimiter.isChoice := by
      funext a
      rw [get_moved]
      rfl
    dsimp only
    rw [hchoice, ancestors_moved, modify_moved]
    intro p
    obtain ⟨kind, span, nameSpan, file, fileIndex⟩ := p
    cases kind <;> rfl

theorem redirect_moved :
    (r.builder b).redirect site parent child = r.outcome (Prod.map id r.builder) (b.redirect site parent child) := by
  unfold redirect
  rw [tree_moved, get_moved]
  change (if parent = site.root && !isTopLevel (b.tree.get child).kind then
    (r.builder b).implicitDocument site (r.span (b.tree.get child).span) else _) = _
  rw [implicitDocument_moved]
  dsimp only
  split <;> rfl

theorem place_moved : (r.builder b).place site parent child (r.position position) = r.outcome r.builder
    (b.place site parent child position) := by
  unfold place
  rw [tree_moved, PairTree.get_moved, PairTree.append_moved]
  cases b.tree.append parent child with
  | ok tree =>
    have hchoice : (r.pair (b.tree.get child)).delimiter = (b.tree.get child).delimiter := rfl
    simp only [attempt, hchoice, registerChoice_moved]
    cases (b.tree.get child).delimiter.isChoice <;> rfl
  | error fault =>
    cases fault with
    | namespaceDefinitionOutOfOrder name line column => rfl
    | childrenNotAllowed kind line column =>
      have hspan : (r.pair (b.tree.get child)).span = r.span (b.tree.get child).span := rfl
      simp only [attempt, fault, hspan, blockNotExpected_moved, report_moved, addOrphan_moved]
      exact append_moved _ _ _

theorem attach_moved : (r.builder b).attach site parent child (r.position position) =
      r.outcome r.builder (b.attach site parent child position) := by
  unfold attach
  rw [redirect_moved]
  exact outcome_bind (fun found => place_moved found.2 site found.1 child position) _

theorem addReference_moved (found : Reference) :
    (r.builder b).addReference site owner (r.reference found) = (b.addReference site owner found).map id r.builder := by
  unfold addReference
  rw [tree_moved, show (r.reference found).head = r.head found.head from rfl, makePair_moved, add_moved]

theorem addReferences_moved : (r.builder b).addReferences site owner (segments.map r.segment) =
      (b.addReferences site owner segments).map id r.builder := by
  induction segments generalizing b with
  | nil => rfl
  | cons segment segments ih =>
    cases segment with
    | text content span => exact ih b
    | reference head =>
      simp only [map_cons, PlaceMap.segment, addReferences, addReference_moved, Prod.map_snd, ih]
      rfl

theorem addTexts_moved (references : List PairId) : (r.builder b).addTexts site (segments.map r.segment) references =
      (b.addTexts site segments references).map id r.builder := by
  induction segments generalizing b references with
  | nil => rfl
  | cons segment segments ih =>
    cases segment with
    | text content span =>
      let pair :=
        { Pair.bare .element span site.file site.fileIndex with
          value := some content
          valueKind := .doubleQuoted }
      let texts := fun added : PairId × Builder => added.2.addTexts site (segments.map r.segment) references
      have hadd : (r.builder b).add (r.pair pair) = _ := b.add_moved pair
      change (((r.builder b).add (r.pair pair)).1 :: (texts ((r.builder b).add (r.pair pair))).1,
        (texts ((r.builder b).add (r.pair pair))).2) = _
      rw [hadd]
      simp only [texts, Prod.map_snd, ih]
      rfl
    | reference head =>
      simp only [map_cons, PlaceMap.segment, addTexts, ih]
      rfl

theorem modify_moved_of {f g : Pair → Pair} (hf : ∀ p, g (r.pair p) = r.pair (f p)) (id : PairId) :
    (r.builder b).modify id g = r.builder (b.modify id f) := by
  simp only [modify, BuilderMap.builder, PairTree.modify_moved_of _ _ hf]

theorem modify_moved (id : PairId) (f : Pair → Pair) (hf : ∀ p, f (r.pair p) = r.pair (f p)) :
    (r.builder b).modify id f = r.builder (b.modify id f) :=
  b.modify_moved_of hf id

theorem setText_moved (id : PairId) (content : String) (kind : ValueKind) :
    (r.builder b).setText id content kind = r.builder (b.setText id content kind) :=
  b.modify_moved id _ fun _ => rfl

theorem setValue_moved (value : Value) :
    (r.builder b).setValue site owner (r.value value) = r.builder (b.setValue site owner value) := by
  cases value with
  | text content kind => exact b.setText_moved owner content kind
  | bare content => exact b.setText_moved owner content _
  | reference head =>
    simp only [value, setValue, addReference_moved, Prod.map, tree_moved, setValueReference_moved]
    rfl
  | segments parts hparts =>
    simp only [value, setValue, addReferences_moved, Prod.map, id, addTexts_moved]
    rw [← modify_moved]
    · simp only [tree_moved, setItems_moved]
      rfl
    · exact fun _ => rfl

theorem addPair_moved (inGroup : Bool) (item : PairItem) :
    (r.builder b).addPair site parent inGroup (r.pairItem item) =
      r.outcome (Prod.map id r.builder) (b.addPair site parent inGroup item) := by
  have hhead : (r.pairItem item).head = r.head item.head := rfl
  have hstop : (r.head item.head).span.stop = r.position item.head.span.stop := rfl
  unfold addPair pairFor
  rw [tree_moved, hhead, kind_moved]
  simp only [makePair_moved, add_moved, Prod.map, id, hstop, attach_moved]
  refine outcome_bind ?_ _
  intro b
  have hvalue : ∀ (b : Builder) (id : PairId),
      (r.pairItem item).value.elim (r.builder b) ((r.builder b).setValue site id) =
      r.builder (item.value.elim b (b.setValue site id)) := by
    intro b id
    obtain ⟨head, value, notes, stop, opensGroup⟩ := item
    cases value with
    | none => rfl
    | some value => exact b.setValue_moved site id value
  have hnotes : (r.pairItem item).notes = item.notes.map r.note := rfl
  rw [hnotes, reportAll_moved, hvalue,
    modify_moved_of (f := fun pair => { pair with span := ⟨pair.span.start, item.stop⟩ })]
  · rfl
  · exact fun _ => rfl

theorem addItem_moved (state : LineState) (item : Item) : (r.builder b).addItem site block state (r.item item) =
      r.outcome (Prod.map r.builder id) (b.addItem site block state item) := by
  cases item with
  | separator => rfl
  | openGroup => rfl
  | closeGroup => rfl
  | note note =>
    simp only [PlaceMap.item, addItem, report_moved]
    rfl
  | comment comment =>
    simp only [PlaceMap.item, addItem, addComment_moved]
    exact outcome_bind (by intro; rfl) _
  | pair item =>
    simp only [PlaceMap.item, addItem, addPair_moved]
    exact outcome_bind (by intro; rfl) _

theorem addItems_moved (items : List Item) : (r.builder b).addItems site block (items.map r.item) =
      r.outcome (Prod.map r.builder id) (b.addItems site block items) := by
  refine outcome_foldlM (f := Prod.map r.builder id) ?_ items (b, LineState.initial block)
  exact fun found item => found.1.addItem_moved site block found.2 item

section

variable (hr : ∀ blocks, r.blocksOf blocks = blocks)

include hr

theorem blockAt_moved (depth : Nat) : (r.builder b).blockAt site depth = b.blockAt site depth := by
  simp only [blockAt, BuilderMap.builder, hr]

theorem lineBlock_moved (depth : Nat) (lead : Span) :
    (r.builder b).lineBlock site depth (r.span lead) = (b.lineBlock site depth lead).map id r.builder := by
  have hstop : (r.span lead).stop = r.position lead.stop := rfl
  unfold lineBlock
  rw [blockAt_moved b site hr]
  dsimp only
  rw [tree_moved, acceptsChildren_moved, hstop, blockNotExpected_moved, report_moved, addOrphan_moved]
  split <;> rfl

theorem addLine_moved (line : Line) :
    addLine site (r.builder b) (r.line line) = r.outcome r.builder (addLine site b line) := by
  cases line with
  | comments depth comments =>
    refine outcome_foldlM (fun b comment => ?_) comments b
    rw [blockAt_moved b site hr]
    exact addComment_moved b site _ comment
  | rejected note => exact congrArg Except.ok (b.report_moved site note)
  | content depth lead items =>
    simp only [line, addLine, lineBlock_moved b site hr, Prod.map, id, addItems_moved]
    refine outcome_bind ?_ _
    intro found
    simp only [pure, Except.pure, BuilderMap.outcome, Prod.map, BuilderMap.builder, hr]
    rfl

end

theorem toValuePlace_moved : toValuePlace (r.pair pair) = r.pair (toValuePlace pair) := by
  obtain ⟨kind, span, nameSpan, file, fileIndex⟩ := pair
  cases kind <;> rfl

theorem gatherItems_moved (id : PairId) : gatherItems (r.tree tree) id = r.tree (gatherItems tree id) := by
  simp only [gatherItems, takeChildren_moved, kind_moved]
  rw [PairTree.foldl_modify_moved, PairTree.adoptChildren_moved, PairTree.setItems_moved, PairTree.modify_moved]
  · exact fun _ => rfl
  · exact toValuePlace_moved

theorem finishPair_moved (id : PairId) : finishPair (r.tree tree) id = r.tree (finishPair tree id) := by
  unfold finishPair
  rw [PairTree.get_moved, PairTree.contentChildren_moved, gatherItems_moved, PairTree.modify_moved]
  · change (if (tree.get id).delimiter = .colonEqual && (tree.get id).items.isNone then _
      else if (tree.get id).delimiter = .none && (tree.get id).valueKind = .none &&
        !(tree.get id).kind.isModule && !(tree.contentChildren id).isEmpty then _ else _) = _
    dsimp only
    split
    · rfl
    · split <;> rfl
  · exact fun _ => rfl

theorem finish_moved : (r.builder b).finish site = r.builder (b.finish site) := by
  have hfold : ∀ (ids : List PairId) (tree : PairTree),
      ids.foldl finishPair (r.tree tree) = r.tree (ids.foldl finishPair tree) := by
    intro ids
    induction ids with
    | nil => exact fun _ => rfl
    | cons id ids ih =>
      intro tree
      rw [foldl_cons, foldl_cons, finishPair_moved, ih]
  unfold finish
  rw [tree_moved, preorder_moved, hfold]
  rfl

end Builder

end PairMarkup
