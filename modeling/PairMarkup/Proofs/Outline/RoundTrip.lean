import PairMarkup.Proofs.Outline.Building
import PairMarkup.Proofs.Parsing

namespace PairMarkup

open List PairTree Entry

/-- From `lo` on, elements say and show what they did. -/
structure PairTree.Keeps (lo : PairId) (t t' : PairTree) : Prop where
  size_le : t.size ≤ t'.size
  element_eq : ∀ x, lo ≤ x → x < t.size → (t.kind x).isElement = true →
    (t'.get x).said = (t.get x).said ∧ t'.contentChildren x = t.contentChildren x

namespace PairTree.Keeps

variable {lo lo' : PairId} {t t' t'' : PairTree}

theorem mono (h : Keeps lo t t') (hle : lo ≤ lo') : Keeps lo' t t' :=
  ⟨h.size_le, fun x hx => h.element_eq x (hle.trans hx)⟩

theorem trans (h : Keeps lo t t') (h' : Keeps lo t' t'') : Keeps lo t t'' := by
  refine ⟨h.size_le.trans h'.size_le, fun x hx hlt helement => ?_⟩
  obtain ⟨hsaid, hchildren⟩ := h.element_eq x hx hlt helement
  rw [← kind_eq_of_said hsaid] at helement
  obtain ⟨hsaid', hchildren'⟩ := h'.element_eq x hx (hlt.trans_le h.size_le) helement
  exact ⟨hsaid'.trans hsaid, hchildren'.trans hchildren⟩

end PairTree.Keeps

theorem Pair.Says.isElement {pair : Pair} {name : Word} {value : Option Phrase} (h : pair.Says name value) :
    pair.kind.isElement := by
  rw [h.kind_eq]
  rfl

namespace Builder

variable {site : Site} {b b' b'' : Builder} {depth : Nat} {ids ids' : List PairId} {name : Word}
  {value : Option Phrase} {x : PairId} {lines : List Line}

/-- The pairs added since are no hosts of the depth they were added at. -/
theorem Extends.keeps (h : Extends site depth ids b b') (hready : Ready site b)
    (h' : Extends site depth ids' b' b'') : b'.tree.Keeps b.tree.size b''.tree := by
  refine ⟨h'.same.size_le, fun x hx hlt helement => ?_⟩
  have hroot : site.root ≤ x := hready.root_lt.le.trans hx
  refine ⟨h'.same.said_eq x hroot hlt, h'.same.children_eq x hroot hlt ?_⟩
  refine not_hosts_of_isElement helement fun hblock => ?_
  have hmem := mem_of_getElem? ((h.block_eq le_rfl).symm.trans hblock)
  exact Nat.not_lt.mpr hx (hready.mem_blocks x hmem).2

namespace Enters

theorem shown_of_keeps (h : Enters site depth ids name value x b b') {t : PairTree}
    (hkeeps : b'.tree.Keeps b.tree.size t) : (t.get x).Says name value ∧ t.contentChildren x = [] := by
  obtain ⟨hsaid, hchildren⟩ := hkeeps.element_eq x h.size_le h.lt_size h.told.isElement
  exact ⟨h.told.of_said hsaid, hchildren.trans h.children_eq⟩

theorem block_eq (h : Enters site depth ids name value x b b') (hready : Ready site b)
    (hlists : Lists site b depth ids) : b'.blocks[depth + 1]? = some x := by
  obtain ⟨block, hblock⟩ := hready.exists_block hlists
  have hlength := length_take_of_block hblock
  rw [h.opened_eq, getElem?_append_right hlength.le, hlength, Nat.sub_self]
  rfl

theorem lists_nil (h : Enters site depth ids name none x b b') (hready : Ready site b)
    (hlists : Lists site b depth ids) : Lists site b' (depth + 1) [] := by
  refine .block (h.block_eq hready hlists) ?_ h.children_eq
  simp [acceptsChildren, h.told.kind_eq, h.told.valueKind_eq, h.told.delimiter_eq, Kind.isComment,
    Kind.isNamespaceDefinition, Delimiter.isValue]

section

variable (h : Enters site depth ids name value x b b') (hready : Ready site b) (hlists : Lists site b depth ids)

include h hready hlists

theorem not_hosts : ¬ Hosts b' depth x := by
  refine not_hosts_of_isElement h.told.isElement fun hblock => ?_
  have hdepth := h.ready.depth_eq hblock (h.block_eq hready hlists)
  omega

theorem extends_below (h' : Extends site (depth + 1) ids' b' b'') : Extends site depth (ids ++ [x]) b b'' := by
  have hblock := h.block_eq hready hlists
  have hhost : ∀ y, Hosts b' (depth + 1) y → y = x := fun y hy => Option.some.inj (hy.symm.trans hblock)
  refine ⟨h'.ready, h'.log_eq.trans h.log_eq, ?_, ?_, ?_⟩
  · have htake := congrArg (List.take (depth + 1)) h'.blocks_eq
    rw [take_take, take_take, Nat.min_eq_left (Nat.le_succ _)] at htake
    exact htake.trans h.blocks_eq
  · refine h.same.trans h'.same fun y _ hlt hy => ?_
    rw [hhost y hy] at hlt
    exact absurd hlt (Nat.not_lt.mpr h.size_le)
  · refine h.lists.of_same h.ready (h'.block_eq (Nat.le_succ _)) h'.same fun y hy hbelow => ?_
    exact h.not_hosts hready hlists (hhost y hbelow ▸ hy)

theorem children_below (h' : Extends site (depth + 1) ids' b' b'') : b''.tree.contentChildren x = ids' := by
  have hblock := (h'.block_eq le_rfl).trans (h.block_eq hready hlists)
  cases h'.lists with
  | block hblock' _ hchildren =>
    obtain rfl := Option.some.inj (hblock.symm.trans hblock')
    exact hchildren

end

end Enters

/-- The lines put pairs into the host of this depth, which then has all of `ids`, and those of the rows `rest`
    are left. Whatever keeps the new elements then has the given property. -/
def Builds (site : Site) (depth : Nat) (lines : List Line) (rest : List Row) (b : Builder) (ids : List PairId)
    (shown : PairTree → Prop) : Prop :=
  ∃ b' remaining, Row.Printed rest remaining ∧ lines.foldlM (addLine site) b = remaining.foldlM (addLine site) b' ∧
    Extends site depth ids b b' ∧ ∀ t, b'.tree.Keeps b.tree.size t → shown t

theorem exists_enters {rows : List Row}
    (hprinted : Row.Printed (.entry depth name value :: rows) lines) (hready : Ready site b)
    (hlists : Lists site b depth ids) :
    ∃ b' x remaining, Row.Printed rows remaining ∧
      lines.foldlM (addLine site) b = remaining.foldlM (addLine site) b' ∧
      Enters site depth ids name value x b b' := by
  generalize hall : Row.entry depth name value :: rows = all at hprinted
  induction hprinted generalizing b with
  | nil => cases hall
  | comment level hclosed hlines ih =>
    obtain ⟨added, hadd, hextends⟩ := exists_addLine_comment hready hlists level hclosed
    obtain ⟨b', x, remaining, hremaining, hfold, henters⟩ := ih hextends.ready hextends.lists hall
    refine ⟨b', x, remaining, hremaining, ?_, hextends.enters henters⟩
    rw [foldlM_cons, hadd]
    exact hfold
  | entry level lead hitem hlines =>
    cases hall
    obtain ⟨block, hblock⟩ := hready.exists_block hlists
    obtain ⟨b', hadd, -, henters⟩ := exists_addLine_entry hready hlists hblock hitem lead
    refine ⟨b', _, _, hlines, ?_, henters⟩
    rw [foldlM_cons, hadd]
    rfl

theorem exists_extends_of_printed_nil (hprinted : Row.Printed [] lines)
    (hready : Ready site b) (hlists : Lists site b depth ids) :
    ∃ b', lines.foldlM (addLine site) b = .ok b' ∧ Extends site depth ids b b' := by
  generalize hall : ([] : List Row) = all at hprinted
  induction hprinted generalizing b with
  | nil => exact ⟨b, rfl, hready, rfl, rfl, .refl _ _ _, hlists⟩
  | comment level hclosed hlines ih =>
    obtain ⟨added, hadd, hextends⟩ := exists_addLine_comment hready hlists level hclosed
    obtain ⟨b', hfold, hrest⟩ := ih hextends.ready hextends.lists hall
    refine ⟨b', ?_, hextends.trans hrest⟩
    rw [foldlM_cons, hadd]
    exact hfold
  | entry => cases hall

end Builder

open Builder in
mutual

theorem Entry.exists_builds {site : Site} {depth : Nat} {rest : List Row} {lines : List Line} {b : Builder}
    {ids : List PairId} (hready : Ready site b) (hlists : Lists site b depth ids) :
    (entry : Entry) → Row.Printed (entry.rows depth ++ rest) lines →
      ∃ x, Builds site depth lines rest b (ids ++ [x]) fun t => entry.Shown t x
  | leaf name value, hprinted => by
    obtain ⟨b', x, remaining, hremaining, hfold, henters⟩ := exists_enters hprinted hready hlists
    exact ⟨x, b', remaining, hremaining, hfold, henters.toExtends, fun t => henters.shown_of_keeps⟩
  | block name entries, hprinted => by
    obtain ⟨b₁, x, lines₁, hlines₁, hfold₁, henters⟩ := exists_enters hprinted hready hlists
    obtain ⟨below, b₂, remaining, hremaining, hfold₂, hextends, hshown⟩ :=
      exists_builds_all henters.ready (henters.lists_nil hready hlists) entries hlines₁
    refine ⟨x, b₂, remaining, hremaining, hfold₁.trans hfold₂, henters.extends_below hready hlists hextends,
      fun t hkeeps => ?_⟩
    have hsaid := hextends.same.said_eq x (hready.root_lt.le.trans henters.size_le) henters.lt_size
    obtain ⟨hsaid', hchildren⟩ := hkeeps.element_eq x henters.size_le
      (henters.lt_size.trans_le hextends.same.size_le) (henters.told.of_said hsaid).isElement
    refine ⟨henters.told.of_said (hsaid'.trans hsaid), ?_⟩
    rw [hchildren, henters.children_below hready hlists hextends]
    exact hshown t (hkeeps.mono henters.same.size_le)

theorem Entry.exists_builds_all {site : Site} {depth : Nat} {rest : List Row} {lines : List Line} {b : Builder}
    {ids : List PairId} (hready : Ready site b) (hlists : Lists site b depth ids) :
    (entries : List Entry) → Row.Printed (rowsAll depth entries ++ rest) lines →
      ∃ added, Builds site depth lines rest b (ids ++ added) fun t => ShownAll t entries added
  | [], hprinted => by
    refine ⟨[], b, lines, hprinted, rfl, ?_, fun _ _ => rfl⟩
    rw [append_nil]
    exact ⟨hready, rfl, rfl, .refl _ _ _, hlists⟩
  | entry :: entries, hprinted => by
    rw [rowsAll, append_assoc] at hprinted
    obtain ⟨x, b₁, lines₁, hlines₁, hfold₁, hfirst, hshown₁⟩ := exists_builds hready hlists entry hprinted
    obtain ⟨added, b₂, lines₂, hlines₂, hfold₂, hothers, hshown₂⟩ :=
      exists_builds_all hfirst.ready hfirst.lists entries hlines₁
    refine ⟨x :: added, b₂, lines₂, hlines₂, hfold₁.trans hfold₂, ?_, fun t hkeeps => ?_⟩
    · have := hfirst.trans hothers
      rwa [append_assoc] at this
    · exact ⟨x, added, rfl, hshown₁ t ((hfirst.keeps hready hothers).trans hkeeps),
        hshown₂ t (hkeeps.mono hfirst.same.size_le)⟩

end

theorem Builder.finishPair_eq_self {t : PairTree} {x : PairId} (h : (t.get x).Finished) : finishPair t x = t := by
  have hgather : ¬ ((t.get x).delimiter = .colonEqual && (t.get x).items.isNone) := by
    simp [h.delimiter_ne]
  have hobject : ¬ ((t.get x).delimiter = .none && (t.get x).valueKind = .none && !(t.get x).kind.isModule &&
      !(t.contentChildren x).isEmpty) = true := by
    intro hall
    simp only [Bool.and_eq_true, decide_eq_true_eq] at hall
    simp [h.isModule hall.1.1.1 hall.1.1.2] at hall
  rw [finishPair, if_neg hgather, if_neg hobject]

variable (set : ModuleSet) (file : String) (format : Format) {site : Site} {b : Builder}

/-- Where nothing is left to be said of any pair, nothing is done at the end. -/
theorem Builder.finish_eq_self (hsettled : b.tree.Settled site.root)
    (hroot : site.root < b.tree.size) : b.finish site = b := by
  have htree : (b.tree.preorder site.root).foldl finishPair b.tree = b.tree := by
    refine List.foldlRecOn (motive := (· = b.tree)) _ _ rfl fun t ht x hx => ?_
    subst ht
    obtain ⟨hle, hlt⟩ := hsettled.mem_preorderTo ⟨le_rfl, hroot⟩ hx
    exact finishPair_eq_self (hsettled.finished x hle hlt)
  rw [finish, htree]

theorem Builder.Ready.finish_eq_self (h : Ready site b) : b.finish site = b :=
  Builder.finish_eq_self h.settled h.root_lt

theorem ModuleSet.ready_opened : Builder.Ready (set.nextSite file format) (set.opened file format) := by
  set pair : Pair := { Pair.bare (.moduleRoot format) default file set.modules.length with name := some file }
  have hget : (set.tree.add pair).2.get set.tree.size = pair := get_add_self _ _
  have hlt : set.tree.size < (set.tree.add pair).2.size := lt_size_add set.tree pair
  exact {
    settled := (Settled.of_size set.tree).add rfl ⟨rfl, Delimiter.noConfusion, fun _ _ => rfl⟩
    root_lt := hlt
    isModule := by
      change ((set.tree.add pair).2.get set.tree.size).kind.isModule = true
      rw [hget]
      rfl
    accepts := by
      change (set.tree.add pair).2.acceptsChildren set.tree.size = true
      rw [acceptsChildren, hget]
      rfl
    head_eq := rfl
    mem_blocks := fun x hx => by
      rw [mem_singleton.mp hx]
      exact ⟨le_rfl, hlt⟩
    nodup := nodup_singleton _ }

theorem ModuleSet.lists_opened : Builder.Lists (set.nextSite file format) (set.opened file format) 0 [] :=
  .empty (contentChildren_add_self _ rfl)

section

variable {set : ModuleSet} {file : String} {format : Format} {text : List Char}
  (hlines : (Line.ofText text).foldlM (Builder.addLine (set.nextSite file format)) (set.opened file format) = .ok b)

include hlines

theorem ModuleSet.parse_eq_of_foldlM : set.parse file format text = ⟨b.log, .ok (set.closed file format b)⟩ := by
  simp only [ModuleSet.parse]
  split
  · rename_i b' hb'
    obtain rfl : b' = b := Except.ok.inj (hb'.symm.trans hlines)
    rfl
  · rename_i halt hhalt
    cases hhalt.symm.trans hlines

/-- What a text makes when nothing is left to be done behind its lines. -/
theorem ModuleSet.parse_eq_of_lines {log : List Diagnostic} (hlog : b.log = log)
    (hfinish : b.finish (set.nextSite file format) = b) :
    set.parse file format text = ⟨log, .ok ⟨b.tree, set.modules ++ [set.tree.size]⟩⟩ := by
  rw [parse_eq_of_foldlM hlines, hlog, closed, hfinish]
  rfl

end

open Builder in
/-- A page with the rows of an outline makes a module with one implicit document, which shows the outline. -/
theorem ModuleSet.exists_parse_page {unit : Line.IndentUnit}
    (hunit : 0 < unit.width) {outline : List Entry} (houtline : outline ≠ []) {rows : List Row}
    (hrows : rows.filter (fun row => !row.isFiller) = rowsAll 0 outline) :
    ∃ tree doc, set.parse file format (Row.page unit rows) = ⟨[], .ok ⟨tree, set.modules ++ [set.tree.size]⟩⟩ ∧
      tree.contentChildren set.tree.size = [doc] ∧ isImplicitDocument (tree.kind doc) ∧
      Entry.ShownAll tree outline (tree.contentChildren doc) := by
  have hready := set.ready_opened file format
  have hlists := set.lists_opened file format
  have hsteps : Row.Steps 0 rows := by
    rw [← Row.steps_filter, hrows, ← append_nil (rowsAll 0 outline)]
    exact steps_rowsAll (fun _ _ => show Row.Steps _ [] from trivial) le_rfl outline
  have hprinted := Row.printed_ofText hunit hsteps
  rw [hrows, ← append_nil (rowsAll 0 outline)] at hprinted
  obtain ⟨ids, b₁, comments, hcomments, hfold, hextends, hshown⟩ := exists_builds_all hready hlists outline hprinted
  obtain ⟨b₂, hlast, htrailing⟩ := exists_extends_of_printed_nil hcomments hextends.ready hextends.lists
  have hall : Entry.ShownAll b₂.tree outline ids := hshown b₂.tree (hextends.keeps hready htrailing)
  have hlog : b₂.log = [] := htrailing.log_eq.trans hextends.log_eq
  have hparse := parse_eq_of_lines (hfold.trans hlast) hlog htrailing.ready.finish_eq_self
  have hdoc := htrailing.lists
  rw [nil_append] at hdoc
  cases hdoc with
  | empty _ =>
    cases outline with
    | nil => exact absurd rfl houtline
    | cons entry entries =>
      obtain ⟨x, rest, hnil, -⟩ := hall
      cases hnil
  | document hdoc => exact ⟨b₂.tree, _, hparse, hdoc.root_eq, hdoc.isImplicit, hdoc.children_eq ▸ hall⟩

namespace Session

/-- An outline is read back from every page that it is written on, without a diagnostic. -/
theorem parse_page (s : Session) (name : String) (format : Format) {unit : Line.IndentUnit}
    (hunit : 0 < unit.width) {outline : List Entry} (houtline : outline ≠ []) {rows : List Row}
    (hrows : rows.filter (fun row => !row.isFiller) = Entry.rowsAll 0 outline) :
    ∃ set doc, (s.set.parse name format (Row.page unit rows)).log = [] ∧
      s.parse ⟨name, format, Row.page unit rows⟩ = .ok ⟨set, s.collection⟩ ∧
      set.modules = s.set.modules ++ [s.set.tree.size] ∧
      set.tree.contentChildren s.set.tree.size = [doc] ∧
      Builder.isImplicitDocument (set.tree.kind doc) = true ∧
      Entry.ShownAll set.tree outline (set.tree.contentChildren doc) := by
  obtain ⟨tree, doc, hparse, hroot, himplicit, hshown⟩ := s.set.exists_parse_page name format hunit houtline hrows
  refine ⟨⟨tree, s.set.modules ++ [s.set.tree.size]⟩, doc, ?_, ?_, rfl, hroot, himplicit, hshown⟩
  · rw [hparse]
  · simp only [parse_eq_accept, hparse, accept, Collection.receiveAll]

/-- A block with an entry and an empty block in it, and an entry without text behind it. -/
def planOutline : List Entry := [.block ⟨['p', '1'], List.cons_ne_nil _ _, List.all_eq_true.mp rfl⟩
    [.leaf ⟨['t'], List.cons_ne_nil _ _, List.all_eq_true.mp rfl⟩
        ⟨['2', ' ', 'é'], List.forall_mem_cons.mpr ⟨by decide, List.forall_mem_cons.mpr ⟨by decide,
          List.forall_mem_singleton.mpr (by decide +kernel)⟩⟩⟩,
      .block ⟨['7'], List.cons_ne_nil _ _, List.all_eq_true.mp rfl⟩ []],
    .leaf ⟨['q'], List.cons_ne_nil _ _, List.all_eq_true.mp rfl⟩ ⟨[], List.forall_mem_nil _⟩]

/-- A comment that is indented by other blanks than the entries are. -/
def planComment : Filler where
  blanks := [' ', '\t']
  comment := some ['\'', 'x']
  isBlank := List.all_eq_true.mp rfl
  inLine := by
    rintro _ ⟨⟩
    simp [Text.isLineBreak]

def planBlank : Filler where
  blanks := ['\t']
  comment := none
  isBlank := List.all_eq_true.mp rfl
  inLine := nofun

/-- The rows of the outline, with a comment before and behind each of them and blank rows between. -/
def planRows : List Row := .filler planComment ::
    (Entry.rowsAll 0 planOutline).flatMap fun row => [row, .filler planBlank, .filler planComment]

theorem planOutline_read_back : Row.page ⟨true, 2⟩ planRows =
        (" \t''''x\np1:\n\t\n \t''''x\n\t\tt = \"2 é\"\n\t\n \t''''x\n\t\t7:\n\t\n \t''''x\n" ++
          "q = \"\"\n\t\n \t''''x").toList ∧
      planOutline ≠ [] ∧ planRows.filter (fun row => !row.isFiller) = Entry.rowsAll 0 planOutline ∧
      ∃ set doc, ((start none).set.parse "plan" .json (Row.page ⟨true, 2⟩ planRows)).log = [] ∧
        (start none).parse ⟨"plan", .json, Row.page ⟨true, 2⟩ planRows⟩ = .ok ⟨set, .empty none⟩ ∧
        set.modules = [0] ∧ set.tree.contentChildren 0 = [doc] ∧
        Builder.isImplicitDocument (set.tree.kind doc) = true ∧
        Entry.ShownAll set.tree planOutline (set.tree.contentChildren doc) :=
  ⟨by decide +kernel, List.cons_ne_nil _ _, rfl,
    parse_page (start none) "plan" .json (show 0 < (⟨true, 2⟩ : Line.IndentUnit).width from Nat.two_pos)
      (List.cons_ne_nil _ _) rfl⟩

end Session

end PairMarkup
