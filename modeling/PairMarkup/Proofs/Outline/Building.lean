import Mathlib.Data.List.TakeWhile
import PairMarkup.Proofs.Outline.Reading
import PairMarkup.Proofs.Outline.Settled

namespace PairMarkup

open List PairTree Option

variable {p : PairId → Prop} {comment : Comment} {x : PairId}

namespace Builder

variable {site : Site} {b b' b'' : Builder} {depth : Nat} {ids ids' : List PairId} {child parent doc x : PairId}
  {t : PairTree}

/-- Lines can be put into the module, which has nothing unusual in it so far. -/
structure Ready (site : Site) (b : Builder) : Prop where
  settled : b.tree.Settled site.root
  root_lt : site.root < b.tree.size
  isModule : (b.tree.kind site.root).isModule = true
  accepts : b.tree.acceptsChildren site.root = true
  head_eq : b.blocks[0]? = some site.root
  mem_blocks : ∀ x ∈ b.blocks, site.root ≤ x ∧ x < b.tree.size
  nodup : b.blocks.Nodup

/-- The module has an implicit document with these pairs, and nothing else. -/
structure HasDocument (site : Site) (t : PairTree) (doc : PairId) (ids : List PairId) : Prop where
  root_eq : t.contentChildren site.root = [doc]
  isImplicit : isImplicitDocument (t.kind doc) = true
  accepts : t.acceptsChildren doc = true
  children_eq : t.contentChildren doc = ids

/-- The host of the entries at this depth has these pairs so far. -/
inductive Lists (site : Site) (b : Builder) : Nat → List PairId → Prop
  | empty (hroot : b.tree.contentChildren site.root = []) : Lists site b 0 []
  | document {doc : PairId} {ids : List PairId} (hdoc : HasDocument site b.tree doc ids) : Lists site b 0 ids
  | block {depth : Nat} {block : PairId} {ids : List PairId} (hblock : b.blocks[depth + 1]? = some block)
      (haccepts : b.tree.acceptsChildren block = true) (hchildren : b.tree.contentChildren block = ids) :
      Lists site b (depth + 1) ids

/-- Entries at this depth change what the pair holds. -/
def Hosts (b : Builder) : Nat → PairId → Prop
  | 0, x => (b.tree.kind x).isElement = false
  | depth + 1, x => b.blocks[depth + 1]? = some x

theorem HasDocument.mem_root (h : HasDocument site t doc ids)
    (hsettled : t.Settled site.root) : site.root ≤ doc ∧ doc < t.size := by
  have hmem : doc ∈ t.contentChildren site.root := by
    rw [h.root_eq]
    exact mem_singleton.mpr rfl
  exact hsettled.children_mem _ le_rfl _ (mem_of_mem_filter hmem)

theorem HasDocument.ne_root (h : HasDocument site t doc ids)
    (hmodule : (t.kind site.root).isModule) : doc ≠ site.root := by
  rintro rfl
  have himplicit := h.isImplicit
  cases hkind : t.kind site.root <;> simp_all [isImplicitDocument, Kind.isModule]

theorem HasDocument.append {t' : PairTree} (h : HasDocument site t doc ids)
    (hdoc : doc < t.size) (hne : doc ≠ site.root) (hchild : (t.kind child).isComment = false)
    (happend : t.append doc child = .ok t') : HasDocument site t' doc (ids ++ [child]) where
  root_eq := by
    rw [contentChildren_append happend hdoc, if_neg fun hx => hne hx.1.symm, append_nil, h.root_eq]
  isImplicit := by
    rw [kind_eq_of_said (said_append happend doc)]
    exact h.isImplicit
  accepts := by
    rw [acceptsChildren_eq_of_said (said_append happend doc)]
    exact h.accepts
  children_eq := by
    rw [contentChildren_append happend hdoc, if_pos ⟨rfl, hchild⟩, h.children_eq]

theorem isElement_of_isImplicitDocument {kind : Kind} (h : isImplicitDocument kind) : kind.isElement = false := by
  cases kind <;> first | rfl | cases h

namespace Ready

section

variable (h : Ready site b) {x : PairId}

include h

theorem isElement_root : (b.tree.kind site.root).isElement = false := by
  have hmodule := h.isModule
  cases hkind : b.tree.kind site.root <;> first | rfl | (rw [hkind] at hmodule; cases hmodule)

theorem of_same (hsettled : b'.tree.Settled site.root)
    (hsame : SameOutside site.root p b.tree b'.tree) (hblocks : b'.blocks = b.blocks) : Ready site b' := by
  have hroot := hsame.said_eq site.root le_rfl h.root_lt
  exact {
    settled := hsettled
    root_lt := h.root_lt.trans_le hsame.size_le
    isModule := by
      rw [kind_eq_of_said hroot]
      exact h.isModule
    accepts := by
      rw [acceptsChildren_eq_of_said hroot]
      exact h.accepts
    head_eq := hblocks ▸ h.head_eq
    mem_blocks := fun x hx =>
      (h.mem_blocks x (hblocks ▸ hx)).imp_right fun hlt => hlt.trans_le hsame.size_le
    nodup := hblocks ▸ h.nodup }

theorem enter (depth : Nat) (hx : site.root ≤ x ∧ x < b.tree.size)
    (hfresh : x ∉ b.blocks) : Ready site { b with blocks := b.blocks.take (depth + 1) ++ [x] } where
  settled := h.settled
  root_lt := h.root_lt
  isModule := h.isModule
  accepts := h.accepts
  head_eq := by
    have hhead := h.head_eq
    cases hblocks : b.blocks with
    | nil => simp [hblocks] at hhead
    | cons block blocks => simpa [hblocks] using hhead
  mem_blocks y hy := by
    rcases mem_append.mp hy with hy | hy
    · exact h.mem_blocks y (mem_of_mem_take hy)
    · rw [mem_singleton.mp hy]
      exact hx
  nodup := by
    refine nodup_append.mpr ⟨h.nodup.sublist (take_sublist _ _), nodup_singleton _, ?_⟩
    rintro y hy z hz rfl
    rw [mem_singleton.mp hz] at hy
    exact hfresh (mem_of_mem_take hy)

theorem depth_eq {i j : Nat} (hi : b.blocks[i]? = some x) (hj : b.blocks[j]? = some x) : i = j :=
  (getElem?_inj (List.getElem?_eq_some_iff.mp hi).1 h.nodup).mp (hi.trans hj.symm)

theorem exists_block (hlists : Lists site b depth ids) : ∃ block, b.blocks[depth]? = some block := by
  cases hlists with
  | empty _ | document _ => exact ⟨_, h.head_eq⟩
  | block hblock _ _ => exact ⟨_, hblock⟩

end

end Ready

/-- An element that is not the open block takes in no entries of the depth. -/
theorem not_hosts_of_isElement (helement : (b.tree.kind x).isElement)
    (hblock : b.blocks[depth]? ≠ some x) : ¬ Hosts b depth x := by
  cases depth with
  | zero =>
    change ¬ (b.tree.kind x).isElement = false
    rw [helement]
    exact Bool.noConfusion
  | succ depth => exact hblock

theorem Hosts.of_same (h : Hosts b' depth x)
    (hsame : SameOutside site.root p b.tree b'.tree) (hblocks : b'.blocks[depth]? = b.blocks[depth]?)
    (hx : site.root ≤ x) (hlt : x < b.tree.size) : Hosts b depth x := by
  cases depth with
  | zero =>
    change (b.tree.kind x).isElement = false
    rw [← kind_eq_of_said (hsame.said_eq x hx hlt)]
    exact h
  | succ depth => exact hblocks.symm.trans h

namespace Lists

theorem congr (h : Lists site b depth ids) (hready : Ready site b) (hblocks : b'.blocks[depth]? = b.blocks[depth]?)
    (hsame : ∀ x, site.root ≤ x → x < b.tree.size → Hosts b depth x →
      (b'.tree.get x).said = (b.tree.get x).said ∧ b'.tree.contentChildren x = b.tree.contentChildren x) :
    Lists site b' depth ids := by
  cases h with
  | empty hroot =>
    have hchildren := (hsame site.root le_rfl hready.root_lt hready.isElement_root).2
    exact .empty (hchildren.trans hroot)
  | document hdoc =>
    have hchildren := (hsame site.root le_rfl hready.root_lt hready.isElement_root).2
    obtain ⟨hle, hlt⟩ := hdoc.mem_root hready.settled
    obtain ⟨hsaid, hids⟩ := hsame _ hle hlt (isElement_of_isImplicitDocument hdoc.isImplicit)
    refine .document ⟨hchildren.trans hdoc.root_eq, ?_, ?_, hids.trans hdoc.children_eq⟩
    · rw [kind_eq_of_said hsaid]
      exact hdoc.isImplicit
    · rw [acceptsChildren_eq_of_said hsaid]
      exact hdoc.accepts
  | block hblock haccepts hchildren =>
    obtain ⟨hle, hlt⟩ := hready.mem_blocks _ (mem_of_getElem? hblock)
    obtain ⟨hsaid, hids⟩ := hsame _ hle hlt hblock
    refine .block (hblocks.trans hblock) ?_ (hids.trans hchildren)
    rw [acceptsChildren_eq_of_said hsaid]
    exact haccepts

theorem of_same (h : Lists site b depth ids) (hready : Ready site b) (hblocks : b'.blocks[depth]? = b.blocks[depth]?)
    (hsame : SameOutside site.root p b.tree b'.tree) (hp : ∀ x, Hosts b depth x → ¬ p x) : Lists site b' depth ids :=
  h.congr hready hblocks fun x hx hlt hhost =>
    ⟨hsame.said_eq x hx hlt, hsame.children_eq x hx hlt (hp x hhost)⟩

end Lists

theorem reportAll_nil (b : Builder) (site : Site) : b.reportAll site [] = b := rfl

/-- A comment changes nothing but the tree, and nothing that is shown there. -/
theorem exists_addComment (h : Ready site b) (hparent : site.root ≤ parent ∧ parent < b.tree.size)
    (hclosed : comment.isClosed) :
    ∃ tree, b.addComment site parent comment = .ok { b with tree } ∧ tree.Settled site.root ∧
      SameOutside site.root (fun _ => False) b.tree tree := by
  have hnotes : comment.notes = [] := if_pos hclosed
  simp only [addComment, hnotes, reportAll_nil, add, append]
  have hfinished : (site.commentPair comment).Finished :=
    ⟨rfl, Delimiter.noConfusion, fun _ hvalue => ValueKind.noConfusion hvalue⟩
  obtain ⟨tree, happend, hsettled, hsame, -⟩ :=
    h.settled.exists_add_append _ rfl hfinished rfl hparent.1 hparent.2 (.inl rfl)
  refine ⟨tree, ?_, hsettled, hsame.mono fun x _ _ hx => ?_⟩
  · rw [add_fst, happend]
  · cases hx.2

theorem exists_place (b : Builder) (site : Site) (hchild : b.tree.kind child = .element)
    (hdelimiter : (b.tree.get child).delimiter.isChoice = false)
    (haccepts : b.tree.acceptsChildren parent) (position : Position) :
    ∃ tree, b.tree.append parent child = .ok tree ∧ b.place site parent child position = .ok { b with tree } := by
  obtain ⟨tree, happend⟩ := b.tree.exists_append (by rw [hchild]; rfl) (.inr haccepts)
  refine ⟨tree, happend, ?_⟩
  simp only [place, happend, hdelimiter]
  rfl

theorem find?_isImplicitDocument (t : PairTree) (id : PairId) :
    ((t.children id).reverse.find? fun c => isImplicitDocument (t.kind c)) =
      (t.contentChildren id).reverse.find? fun c => isImplicitDocument (t.kind c) := by
  rw [contentChildren, ← filter_reverse, find?_filter]
  congr 1
  funext c
  cases t.kind c <;> simp [isImplicitDocument, Kind.isComment]

theorem exists_implicitDocument (h : Ready site b) (hlists : Lists site b 0 ids) (span : Span) :
    ∃ doc tree, b.implicitDocument site span = .ok (doc, { b with tree }) ∧ tree.Settled site.root ∧
      SameOutside site.root (Hosts b 0) b.tree tree ∧ HasDocument site tree doc ids := by
  cases hlists with
  | document hdoc =>
    rename_i doc
    have hfind : ((b.tree.children site.root).reverse.find? fun c => isImplicitDocument (b.tree.kind c)) =
        some doc := by
      rw [find?_isImplicitDocument, hdoc.root_eq]
      exact find?_cons_of_pos hdoc.isImplicit
    refine ⟨doc, b.tree, ?_, h.settled, .refl _ _ _, hdoc⟩
    rw [implicitDocument, hfind]
  | empty hroot =>
    simp only [implicitDocument, find?_isImplicitDocument, hroot, reverse_nil, find?_nil, add]
    obtain ⟨tree, happend, hsettled, hsame, hsaid, hchildren, hroot'⟩ :=
      h.settled.exists_add_append (b.implicitPair site span) rfl (Pair.finished_of_delimiter rfl (.inr (.inr rfl))) rfl
        le_rfl h.root_lt (.inr h.accepts)
    refine ⟨b.tree.size, tree, ?_, hsettled, ?_, ?_, ?_, ?_, hchildren⟩
    · simp only [add_fst, append, happend]
      rfl
    · refine hsame.mono fun x _ _ hx => ?_
      rw [hx.1]
      exact h.isElement_root
    · rw [hroot', hroot]
      rfl
    · exact congrArg (fun pair : Pair => isImplicitDocument pair.kind) hsaid
    · exact acceptsChildren_eq_of_said hsaid

/-- An element that was added is put into the host of its depth. -/
theorem exists_attach (h : Ready site b) (hlists : Lists site b depth ids) {block : PairId}
    (hblock : b.blocks[depth]? = some block) (hle : site.root ≤ child) (hlt : child < b.tree.size)
    (hchild : b.tree.kind child = .element) (hdelimiter : (b.tree.get child).delimiter.isChoice = false)
    (position : Position) :
    ∃ tree, b.attach site block child position = .ok { b with tree } ∧ tree.Settled site.root ∧
      SameOutside site.root (Hosts b depth) b.tree tree ∧ Lists site { b with tree } depth (ids ++ [child]) := by
  have hcomment : (b.tree.kind child).isComment = false := by
    rw [hchild]
    rfl
  have htop : isTopLevel (b.tree.get child).kind = false := by
    rw [show (b.tree.get child).kind = .element from hchild]
    rfl
  cases depth with
  | zero =>
    obtain rfl : block = site.root := some.inj (hblock.symm.trans h.head_eq)
    obtain ⟨doc, added, hdoc, hsettled, hsame, hhas⟩ := exists_implicitDocument h hlists (b.tree.get child).span
    have hready : Ready site { b with tree := added } := h.of_same hsettled hsame rfl
    have hdocLt := (hhas.mem_root hsettled).2
    have hsaid := hsame.said_eq child hle hlt
    have hkind : added.kind child = .element := (kind_eq_of_said hsaid).trans hchild
    have hchoice : (added.get child).delimiter.isChoice = false :=
      (congrArg (fun pair : Pair => pair.delimiter.isChoice) hsaid :).trans hdelimiter
    obtain ⟨tree, happend, hplace⟩ := exists_place { b with tree := added } site hkind hchoice hhas.accepts position
    refine ⟨tree, ?_, ?_, ?_, ?_⟩
    · simp only [attach, redirect, htop, hdoc]
      exact hplace
    · exact hsettled.append happend hdocLt hle (hlt.trans_le hsame.size_le)
    · refine hsame.trans (append_same happend hdocLt) fun x hx hxlt hxdoc => ?_
      change (b.tree.kind x).isElement = false
      rw [← kind_eq_of_said (hsame.said_eq x hx hxlt), hxdoc.1]
      exact isElement_of_isImplicitDocument hhas.isImplicit
    · exact .document (hhas.append hdocLt (hhas.ne_root hready.isModule) (by rw [hkind]; rfl) happend)
  | succ depth =>
    cases hlists with
    | block hblock' haccepts hchildren =>
      obtain rfl := some.inj (hblock.symm.trans hblock')
      have hblockLt := (h.mem_blocks block (mem_of_getElem? hblock)).2
      have hne : block ≠ site.root := by
        rintro rfl
        cases h.depth_eq hblock h.head_eq
      obtain ⟨tree, happend, hplace⟩ := exists_place b site hchild hdelimiter haccepts position
      refine ⟨tree, ?_, ?_, ?_, .block hblock ?_ ?_⟩
      · simp only [attach, redirect, hne]
        exact hplace
      · exact h.settled.append happend hblockLt hle hlt
      · refine (append_same happend hblockLt).mono fun x _ _ hx => ?_
        rw [hx.1]
        exact hblock
      · rw [acceptsChildren_eq_of_said (said_append happend block)]
        exact haccepts
      · rw [contentChildren_append happend hblockLt, if_pos ⟨rfl, hcomment⟩, hchildren]

end Builder

theorem splitName_word (name : Word) :
    splitName (String.ofList name.chars) = (none, some (String.ofList name.chars)) := by
  have hdot : ∀ c ∈ name.chars, decide (c ≠ '.') := fun c hc =>
    decide_eq_true (ne_of_isAlphanum (name.isAlphanum c hc) (by decide))
  have hafter : name.chars.dropWhile (· ≠ '.') = [] := dropWhile_eq_nil_iff.mpr hdot
  have hempty : (String.ofList name.chars).isEmpty = false := by simp [name.ne_nil]
  simp only [splitName, String.toList_ofList, hafter, hempty, drop_nil, isEmpty_nil, Bool.not_true,
    Bool.and_false, Bool.false_eq_true, if_false]

variable {item : PairItem} {name : Word} {value : Option (String × ValueKind)}

theorem PairItem.Bears.interpret_eq {delimiter : Delimiter} (h : item.Bears name delimiter value) (format : Format)
    (tree : PairTree) (parent : PairId) :
    format.interpret tree ⟨parent, false, false⟩ item.head = (.element, none, some (String.ofList name.chars)) := by
  obtain ⟨span, hname⟩ := h.name_eq
  have hempty : (String.ofList name.chars).isEmpty = false := by simp [name.ne_nil]
  cases format with
  | xml => simp [Format.interpret, sharedKind?, h.sigil_eq, Head.prefixedName, hname, splitName_word]
  | json => simp [Format.interpret, sharedKind?, h.sigil_eq, Head.nonemptyName?, hname, hempty]

theorem PairItem.Tells.isPlain
    (_ : item.Tells name value) : Delimiter.IsPlain (if value.isSome then .equal else .colon) := by
  cases value with
  | none => exact .inr (.inr rfl)
  | some value => exact .inl rfl

namespace Pair

/-- The pair with a text for its value, if there is one, and with the end of its span. -/
def completed (pair : Pair) (stop : Position) : Option (String × ValueKind) → Pair
  | none => { pair with span := ⟨pair.span.start, stop⟩ }
  | some value =>
    { pair with
      value := some value.1
      valueKind := value.2
      span := ⟨pair.span.start, stop⟩ }

variable (pair : Pair) (stop : Position) (value : Option (String × ValueKind))

theorem kind_completed : (pair.completed stop value).kind = pair.kind := by
  cases value <;> rfl

theorem children_completed : (pair.completed stop value).children = pair.children := by
  cases value <;> rfl

theorem said_completed : (pair.completed stop value).said = (pair.said.completed stop value).said := by
  cases value <;> rfl

theorem finished_completed {pair : Pair} (h : pair.Finished) (hdelimiter : pair.delimiter.IsPlain) :
    (pair.completed stop value).Finished := by
  refine finished_of_delimiter ?_ ?_
  · cases value <;> exact h.items_eq
  · cases value <;> exact hdelimiter

end Pair

theorem PairItem.Says.told_completed {value : Option Phrase}
    (h : item.Says name value) (site : Site) (tree : PairTree) (parent : PairId) :
    ((site.format.makePair site.file site.fileIndex tree ⟨parent, false, false⟩ item.head).completed
      item.stop (value.map Phrase.quoted)).Says name value := by
  simp only [Format.makePair, h.interpret_eq, h.delimiter_eq]
  cases value <;> exact ⟨rfl, rfl, rfl, rfl, rfl, rfl, rfl⟩

namespace Builder

variable {block : PairId} {value : Option (String × ValueKind)} {item : PairItem} {delimiter : Delimiter}
  {name : Word} {site : Site} {b b' b'' : Builder} {depth : Nat} {ids ids' : List PairId}

theorem modify_setValue_eq (h : item.Bears name delimiter value) (b : Builder) (site : Site) (id : PairId) :
    ((item.value.elim b (b.setValue site id)).modify id fun pair =>
        { pair with span := ⟨pair.span.start, item.stop⟩ }) =
      b.modify id fun pair => pair.completed item.stop value := by
  rw [h.value_eq]
  cases value with
  | none => rfl
  | some value =>
    change Builder.mk ((b.tree.modify id _).modify id _) _ _ = _
    rw [PairTree.modify_modify]
    rfl

/-- A new element is put into the host of its depth, and is none itself. -/
theorem exists_add_attach (h : Ready site b) (hlists : Lists site b depth ids)
    (hblock : b.blocks[depth]? = some block) {pair : Pair} (hkind : pair.kind = .element)
    (hchildren : pair.children = []) (hitems : pair.items = none) (hdelimiter : pair.delimiter.IsPlain)
    (position : Position) :
    ∃ tree, (b.add pair).2.attach site block b.tree.size position = .ok { b with tree } ∧
      Ready site { b with tree } ∧ b.tree.size < tree.size ∧
      SameOutside site.root (Hosts b depth) b.tree tree ∧
      Lists site { b with tree } depth (ids ++ [b.tree.size]) ∧ ¬ Hosts { b with tree } depth b.tree.size ∧
      (tree.get b.tree.size).said = pair.said ∧ tree.contentChildren b.tree.size = [] := by
  have hget : (b.add pair).2.tree.get b.tree.size = pair := get_add_self _ _
  have hlt : b.tree.size < (b.add pair).2.tree.size := lt_size_add b.tree pair
  have hroot : site.root ≤ b.tree.size := h.root_lt.le
  have hchoice : pair.delimiter.isChoice = false := by
    rcases hdelimiter with hdelimiter | hdelimiter | hdelimiter <;> rw [hdelimiter] <;> rfl
  have hadded : SameOutside site.root (fun _ => False) b.tree (b.add pair).2.tree := h.settled.add_same pair
  have hready : Ready site (b.add pair).2 :=
    h.of_same (h.settled.add hchildren (Pair.finished_of_delimiter hitems hdelimiter)) hadded rfl
  have hhost : ¬ Hosts (b.add pair).2 depth b.tree.size := by
    refine not_hosts_of_isElement ?_ fun hopen => ?_
    · rw [kind, hget, hkind]
      rfl
    · exact lt_irrefl _ (h.mem_blocks _ (mem_of_getElem? hopen)).2
  obtain ⟨tree, hattach, hsettled, hsame, hlisted⟩ :=
    exists_attach hready (hlists.of_same h rfl hadded fun _ _ => not_false) hblock hroot hlt
      ((congrArg Pair.kind hget).trans hkind) ((congrArg (·.delimiter.isChoice) hget).trans hchoice) position
  refine ⟨tree, hattach, hready.of_same hsettled hsame rfl, hlt.trans_le hsame.size_le, ?_, hlisted,
    fun hhosts => hhost (hhosts.of_same hsame rfl hroot hlt), ?_, ?_⟩
  · exact (hadded.mono fun _ _ _ => False.elim).trans hsame fun x hx hxlt hhosts =>
      hhosts.of_same hadded rfl hx hxlt
  · rw [hsame.said_eq _ hroot hlt, hget]
  · rw [hsame.children_eq _ hroot hlt hhost]
    exact contentChildren_add_self _ hchildren

theorem exists_addPair (h : Ready site b) (hlists : Lists site b depth ids)
    (hblock : b.blocks[depth]? = some block) (hitem : item.Bears name delimiter value)
    (hplain : delimiter.IsPlain) :
    ∃ tree, b.addPair site block false item = .ok (b.tree.size, { b with tree }) ∧
      tree.Settled site.root ∧ b.tree.size < tree.size ∧
      SameOutside site.root (Hosts b depth) b.tree tree ∧
      Lists site { b with tree } depth (ids ++ [b.tree.size]) ∧
      (tree.get b.tree.size).said = ((site.format.makePair site.file site.fileIndex b.tree ⟨block, false, false⟩
        item.head).completed item.stop value).said ∧ tree.contentChildren b.tree.size = [] := by
  set pair := site.format.makePair site.file site.fileIndex b.tree ⟨block, false, false⟩ item.head
  have hdelimiter : pair.delimiter.IsPlain := by
    rwa [show pair.delimiter = _ from hitem.delimiter_eq]
  obtain ⟨tree, hattach, hready, hlt, hsame, hlisted, hhost, hsaid, hchildren⟩ :=
    exists_add_attach h hlists hblock (congrArg Prod.fst (hitem.interpret_eq site.format b.tree block) :) rfl rfl
      hdelimiter item.head.span.stop
  -- what is left to be done changes only the new pair, and that is no host
  have hkind := fun pair : Pair => pair.kind_completed item.stop value
  have hkept := fun pair : Pair => pair.children_completed item.stop value
  refine ⟨tree.modify b.tree.size fun pair => pair.completed item.stop value, ?_, ?_, ?_, ?_, ?_, ?_, ?_⟩
  · simp only [addPair]
    change ((b.add pair).2.attach site block b.tree.size item.head.span.stop >>= _) = _
    rw [hattach, hitem.notes_eq]
    exact congrArg (fun result => Except.ok (b.tree.size, result)) (modify_setValue_eq hitem { b with tree } site _)
  · refine hready.settled.modify _ hkept fun hfinished => Pair.finished_completed _ _ hfinished ?_
    have hsame : (tree.get b.tree.size).delimiter = pair.delimiter := (congrArg Pair.delimiter hsaid :)
    rwa [hsame]
  · rwa [size_modify]
  · exact hsame.modify le_rfl hkind hkept
  · refine hlisted.congr hready rfl fun x _ _ hx => ⟨?_, contentChildren_modify _ _ hkind hkept⟩
    refine congrArg Pair.said (get_modify_of_ne ?_ _)
    rintro rfl
    exact hhost hx
  · rw [get_modify_self hlt, Pair.said_completed, hsaid, ← Pair.said_completed]
  · rw [contentChildren_modify _ _ hkind hkept]
    exact hchildren

/-- Lines have changed nothing but the host of entries at this depth, which now has these pairs. -/
structure Extends (site : Site) (depth : Nat) (ids : List PairId) (b b' : Builder) : Prop where
  ready : Ready site b'
  log_eq : b'.log = b.log
  blocks_eq : b'.blocks.take (depth + 1) = b.blocks.take (depth + 1)
  same : SameOutside site.root (Hosts b depth) b.tree b'.tree
  lists : Lists site b' depth ids

/-- Lines have added the pair of an entry, which is open now. -/
structure Enters (site : Site) (depth : Nat) (ids : List PairId) (name : Word) (value : Option Phrase) (x : PairId)
    (b b' : Builder) : Prop extends Extends site depth (ids ++ [x]) b b' where
  opened_eq : b'.blocks = b.blocks.take (depth + 1) ++ [x]
  size_le : b.tree.size ≤ x
  lt_size : x < b'.tree.size
  told : (b'.tree.get x).Says name value
  children_eq : b'.tree.contentChildren x = []

theorem length_take_of_block {blocks : List PairId} (h : blocks[depth]? = some block) :
    (blocks.take (depth + 1)).length = depth + 1 := by
  have hlt := (List.getElem?_eq_some_iff.mp h).1
  rw [length_take]
  omega

namespace Extends

section

variable (h : Extends site depth ids b b')

include h

theorem block_eq {i : Nat} (hi : i ≤ depth) : b'.blocks[i]? = b.blocks[i]? := by
  have hblock := congrArg (·[i]?) h.blocks_eq
  simpa only [getElem?_take_of_lt (Nat.lt_succ_of_le hi)] using hblock

theorem trans (h' : Extends site depth ids' b' b'') : Extends site depth ids' b b'' where
  ready := h'.ready
  log_eq := h'.log_eq.trans h.log_eq
  blocks_eq := h'.blocks_eq.trans h.blocks_eq
  same := h.same.trans h'.same fun _ hx hlt hhost => hhost.of_same h.same (h.block_eq le_rfl) hx hlt
  lists := h'.lists

theorem enters {name : Word} {value : Option Phrase}
    (h' : Enters site depth ids' name value x b' b'') : Enters site depth ids' name value x b b'' where
  toExtends := h.trans h'.toExtends
  opened_eq := h.blocks_eq ▸ h'.opened_eq
  size_le := h.same.size_le.trans h'.size_le
  lt_size := h'.lt_size
  told := h'.told
  children_eq := h'.children_eq

end

end Extends

theorem exists_addLine_comment (h : Ready site b) (hlists : Lists site b depth ids) (level : Nat)
    (hclosed : comment.isClosed) :
    ∃ b', b.addLine site (.comments level [comment]) = .ok b' ∧ Extends site depth ids b b' := by
  have hparent : site.root ≤ b.blockAt site level ∧ b.blockAt site level < b.tree.size := by
    rw [blockAt]
    cases hblock : b.blocks[level]? with
    | none => exact ⟨le_rfl, h.root_lt⟩
    | some block => exact h.mem_blocks block (mem_of_getElem? hblock)
  obtain ⟨tree, hadd, hsettled, hsame⟩ := exists_addComment h hparent hclosed
  refine ⟨{ b with tree }, ?_, h.of_same hsettled hsame rfl, rfl, rfl, hsame.mono fun _ _ _ => False.elim,
    hlists.of_same h rfl hsame fun _ _ => not_false⟩
  simp only [addLine, foldlM_cons, foldlM_nil, hadd]
  rfl

theorem lineBlock_eq (hlists : Lists site b depth ids) (hblock : b.blocks[depth]? = some block) (lead : Span) :
    b.lineBlock site depth lead = (block, b) := by
  have hat : b.blockAt site depth = block := by rw [blockAt, hblock, getD_some]
  rw [lineBlock, hat]
  cases hlists with
  | empty _ | document _ => rfl
  | block hblock' haccepts _ =>
    obtain rfl := some.inj (hblock.symm.trans hblock')
    simp [haccepts]

theorem LineState.current_enter (state : LineState) (id : PairId) (item : PairItem) :
    (state.enter id item).current = some id := by
  rw [enter]
  split <;> rfl

theorem addLine_pair (hlists : Lists site b depth ids) (hblock : b.blocks[depth]? = some block)
    {tree : PairTree} {log : List Diagnostic} (hadd : b.addPair site block false item = .ok (x, { b with tree, log }))
    (lead : Span) : b.addLine site (.content depth lead [.pair item]) =
      .ok ⟨tree, b.blocks.take (depth + 1) ++ [x], log⟩ := by
  have htake : b.blocks.take (depth + 1) = b.blocks.take depth ++ [block] := by
    rw [take_add_one, hblock, toList_some]
  have hitems : b.addItems site block [.pair item] =
      .ok ({ b with tree, log }, (LineState.initial block).enter x item) := by
    simp only [addItems, foldlM_cons, foldlM_nil]
    change ((b.addPair site block false item >>= _) >>= _) = _
    rw [hadd]
    rfl
  simp only [addLine, lineBlock_eq hlists hblock, hitems, htake]
  change Except.ok _ = Except.ok _
  rw [LineState.current_enter]
  rfl

theorem exists_addLine_pair (h : Ready site b) (hlists : Lists site b depth ids)
    (hblock : b.blocks[depth]? = some block) (hitem : item.Bears name delimiter value)
    (hplain : delimiter.IsPlain) (lead : Span) :
    ∃ b', b.addLine site (.content depth lead [.pair item]) = .ok b' ∧
      b.addPair site block false item = .ok (b.tree.size, { b with tree := b'.tree }) ∧
      Extends site depth (ids ++ [b.tree.size]) b b' ∧ b'.blocks = b.blocks.take (depth + 1) ++ [b.tree.size] ∧
      b.tree.size < b'.tree.size ∧
      (b'.tree.get b.tree.size).said = ((site.format.makePair site.file site.fileIndex b.tree ⟨block, false, false⟩
        item.head).completed item.stop value).said ∧ b'.tree.contentChildren b.tree.size = [] := by
  obtain ⟨tree, hadd, hsettled, hlt, hsame, hlisted, hsaid, hchildren⟩ := exists_addPair h hlists hblock hitem hplain
  have hfresh : b.tree.size ∉ b.blocks := fun hmem => lt_irrefl _ (h.mem_blocks _ hmem).2
  have hready : Ready site { b with tree } := h.of_same hsettled hsame rfl
  have hlength := length_take_of_block hblock
  refine ⟨{ b with tree, blocks := b.blocks.take (depth + 1) ++ [b.tree.size] },
    addLine_pair hlists hblock hadd lead, hadd, ⟨?_, rfl, ?_, hsame, ?_⟩, rfl, hlt, hsaid, hchildren⟩
  · exact hready.enter depth ⟨h.root_lt.le, hlt⟩ hfresh
  · exact take_left' hlength
  · refine hlisted.congr hready ?_ fun _ _ _ _ => ⟨rfl, rfl⟩
    change (b.blocks.take (depth + 1) ++ [b.tree.size])[depth]? = b.blocks[depth]?
    rw [getElem?_append_left (by omega), getElem?_take_of_lt (Nat.lt_succ_self depth)]

theorem exists_addLine_entry (h : Ready site b) (hlists : Lists site b depth ids)
    (hblock : b.blocks[depth]? = some block) {value : Option Phrase} (hitem : item.Says name value)
    (lead : Span) :
    ∃ b', b.addLine site (.content depth lead [.pair item]) = .ok b' ∧
      b.addPair site block false item = .ok (b.tree.size, { b with tree := b'.tree }) ∧
      Enters site depth ids name value b.tree.size b b' := by
  obtain ⟨b', hline, hadd, hextends, hopened, hlt, hsaid, hchildren⟩ :=
    exists_addLine_pair h hlists hblock hitem hitem.isPlain lead
  have htold : (b'.tree.get b.tree.size).Says name value := (hitem.told_completed site b.tree block).of_said hsaid
  exact ⟨b', hline, hadd, hextends, hopened, le_rfl, hlt, htold, hchildren⟩

end Builder

end PairMarkup
