import PairMarkup.Proofs.Outline.Basic
import PairMarkup.Proofs.Tree.Attach

namespace PairMarkup

open List

/-- What is said in the pair, wherever it stands. -/
def Pair.said (pair : Pair) : Pair := { pair with span := default, children := [], parent := none, isChoice := false }

variable {a b : Pair}

theorem Pair.Says.of_said {name : Word} {value : Option Phrase} (h : a.Says name value)
    (hsaid : b.said = a.said) : b.Says name value where
  kind_eq := (congrArg Pair.kind hsaid).trans h.kind_eq
  name_eq := (congrArg Pair.name hsaid).trans h.name_eq
  nsPrefix_eq := (congrArg Pair.nsPrefix hsaid).trans h.nsPrefix_eq
  value_eq := (congrArg Pair.value hsaid).trans h.value_eq
  valueKind_eq := (congrArg Pair.valueKind hsaid).trans h.valueKind_eq
  delimiter_eq := (congrArg Pair.delimiter hsaid).trans h.delimiter_eq
  items_eq := (congrArg Pair.items hsaid).trans h.items_eq

/-- Nothing is left to be said of the pair when its block is known. -/
structure Pair.Finished (pair : Pair) : Prop where
  items_eq : pair.items = none
  delimiter_ne : pair.delimiter ≠ .colonEqual
  isModule : pair.delimiter = .none → pair.valueKind = .none → pair.kind.isModule = true

/-- The delimiter comes before a value or a block that is all there is to the pair. -/
def Delimiter.IsPlain (delimiter : Delimiter) : Prop :=
  delimiter = .equal ∨ delimiter = .doubleEqual ∨ delimiter = .colon

theorem Pair.finished_of_delimiter {pair : Pair} (hitems : pair.items = none)
    (hdelimiter : pair.delimiter.IsPlain) : pair.Finished := by
  refine ⟨hitems, ?_, fun hnone => ?_⟩
  · rcases hdelimiter with h | h | h <;> simp [h]
  · rcases hdelimiter with h | h | h <;> simp [h] at hnone

theorem Pair.Finished.of_said (h : a.Finished) (hsaid : b.said = a.said) : b.Finished := by
  have hkind : b.kind = a.kind := (congrArg Pair.kind hsaid :)
  have hdelimiter : b.delimiter = a.delimiter := (congrArg Pair.delimiter hsaid :)
  have hvalueKind : b.valueKind = a.valueKind := (congrArg Pair.valueKind hsaid :)
  refine ⟨(congrArg Pair.items hsaid).trans h.items_eq, hdelimiter ▸ h.delimiter_ne, ?_⟩
  rw [hdelimiter, hvalueKind, hkind]
  exact h.isModule

namespace PairTree

variable {parent child x : PairId} {root : PairId} {t t' t'' : PairTree} {f : Pair → Pair} {pair : Pair}

theorem kind_eq_of_said (h : (t'.get x).said = (t.get x).said) : t'.kind x = t.kind x := (congrArg Pair.kind h :)

theorem acceptsChildren_eq_of_said (h : (t.get x).said = pair.said) :
    t.acceptsChildren x = (!pair.kind.isComment && !pair.kind.isNamespaceDefinition &&
      pair.valueKind != .pairValue && !pair.delimiter.isValue) :=
  (congrArg (fun pair : Pair => !pair.kind.isComment && !pair.kind.isNamespaceDefinition &&
    pair.valueKind != .pairValue && !pair.delimiter.isValue) h :)

/-- Pairs from `root` on hold only such, and no values put together from parts. -/
structure Settled (root : PairId) (t : PairTree) : Prop where
  children_mem : ∀ x, root ≤ x → ∀ c ∈ t.children x, root ≤ c ∧ c < t.size
  finished : ∀ x, root ≤ x → x < t.size → (t.get x).Finished

/-- From `root` on, pairs say what they said, and those outside of `p` show what they showed. -/
structure SameOutside (root : PairId) (p : PairId → Prop) (t t' : PairTree) : Prop where
  size_le : t.size ≤ t'.size
  said_eq : ∀ x, root ≤ x → x < t.size → (t'.get x).said = (t.get x).said
  children_eq : ∀ x, root ≤ x → x < t.size → ¬ p x → t'.contentChildren x = t.contentChildren x

namespace SameOutside

variable {p q : PairId → Prop}

theorem refl (root : PairId) (p : PairId → Prop) (t : PairTree) : SameOutside root p t t :=
  ⟨le_rfl, fun _ _ _ => rfl, fun _ _ _ _ => rfl⟩

theorem trans (h : SameOutside root p t t') (h' : SameOutside root q t' t'')
    (hq : ∀ x, root ≤ x → x < t.size → q x → p x) : SameOutside root p t t'' where
  size_le := h.size_le.trans h'.size_le
  said_eq x hx hlt := (h'.said_eq x hx (hlt.trans_le h.size_le)).trans (h.said_eq x hx hlt)
  children_eq x hx hlt hp :=
    (h'.children_eq x hx (hlt.trans_le h.size_le) fun hqx => hp (hq x hx hlt hqx)).trans (h.children_eq x hx hlt hp)

theorem mono (h : SameOutside root p t t') (hpq : ∀ x, root ≤ x → x < t.size → p x → q x) :
    SameOutside root q t t' where
  size_le := h.size_le
  said_eq := h.said_eq
  children_eq x hx hlt hq := h.children_eq x hx hlt fun hp => hq (hpq x hx hlt hp)

end SameOutside

theorem lt_size_add (t : PairTree) (pair : Pair) : t.size < (t.add pair).2.size := by
  rw [size_add]
  exact Nat.lt_succ_self _

theorem contentChildren_add (hx : t.size ∉ t.children x) (pair : Pair) (hne : x ≠ t.size) :
    (t.add pair).2.contentChildren x = t.contentChildren x := by
  have hchildren : (t.add pair).2.children x = t.children x := by
    rw [children, get_add_of_ne t pair hne, children]
  rw [contentChildren, hchildren, contentChildren]
  refine filter_congr fun c hc => ?_
  have hc : c ≠ t.size := by
    rintro rfl
    exact hx hc
  rw [kind, get_add_of_ne t pair hc, kind]

theorem contentChildren_add_self (t : PairTree) (hchildren : pair.children = []) :
    (t.add pair).2.contentChildren t.size = [] := by
  rw [contentChildren, children, get_add_self, hchildren]
  rfl

namespace Settled

theorem of_size (t : PairTree) : t.Settled t.size where
  children_mem x hx c hc := by
    rw [children, get_eq_default hx] at hc
    cases hc
  finished x hx hlt := absurd hlt (not_lt.mpr hx)

section

variable (h : t.Settled root)

include h

theorem size_not_mem {x : PairId} (hx : root ≤ x) : t.size ∉ t.children x :=
  fun hmem => lt_irrefl _ (h.children_mem x hx _ hmem).2

theorem add {pair : Pair} (hchildren : pair.children = []) (hpair : pair.Finished) : (t.add pair).2.Settled root where
  children_mem x hx c hc := by
    rw [size_add]
    rw [children, get_add] at hc
    split at hc
    · rw [hchildren] at hc
      cases hc
    · exact (h.children_mem x hx c hc).imp_right Nat.lt_succ_of_lt
  finished x hx hlt := by
    rw [get_add]
    rw [size_add] at hlt
    split
    · exact hpair
    · rename_i hne
      exact h.finished x hx (lt_of_le_of_ne (Nat.le_of_lt_succ hlt) hne)

theorem add_same (pair : Pair) : SameOutside root (fun _ => False) t (t.add pair).2 where
  size_le := (lt_size_add t pair).le
  said_eq x _ hlt := by rw [get_add_of_ne t pair hlt.ne]
  children_eq x hx hlt _ := contentChildren_add (h.size_not_mem hx) pair hlt.ne

theorem modify (id : PairId) {f : Pair → Pair} (hchildren : ∀ pair, (f pair).children = pair.children)
    (hfinished : (t.get id).Finished → (f (t.get id)).Finished) : (t.modify id f).Settled root where
  children_mem x hx c hc := by
    rw [size_modify]
    have heq : (t.modify id f).children x = t.children x := modify_eq_of_keeps Pair.children t id x hchildren
    exact h.children_mem x hx c (heq ▸ hc)
  finished x hx hlt := by
    rw [size_modify] at hlt
    rw [get_modify]
    split
    · rename_i heq
      obtain ⟨rfl, -⟩ := heq
      exact hfinished (h.finished x hx hlt)
    · exact h.finished x hx hlt

end

end Settled

theorem contentChildren_modify (id x : PairId) (hkind : ∀ pair, (f pair).kind = pair.kind)
    (hchildren : ∀ pair, (f pair).children = pair.children) :
    (t.modify id f).contentChildren x = t.contentChildren x := by
  have heq : (t.modify id f).children x = t.children x := modify_eq_of_keeps Pair.children t id x hchildren
  have hkinds : ∀ c, (t.modify id f).kind c = t.kind c := fun c => modify_eq_of_keeps Pair.kind t id c hkind
  simp only [contentChildren, heq, hkinds]

theorem SameOutside.modify {p : PairId → Prop} (h : SameOutside root p t t') {id : PairId}
    (hid : t.size ≤ id) (hkind : ∀ pair, (f pair).kind = pair.kind)
    (hchildren : ∀ pair, (f pair).children = pair.children) : SameOutside root p t (t'.modify id f) where
  size_le := by
    rw [size_modify]
    exact h.size_le
  said_eq x hx hlt := by
    rw [get_modify_of_ne (hlt.trans_le hid).ne]
    exact h.said_eq x hx hlt
  children_eq x hx hlt hp := by
    rw [contentChildren_modify id x hkind hchildren]
    exact h.children_eq x hx hlt hp

theorem exists_append (t : PairTree) (hchild : (t.kind child).isNamespaceDefinition = false)
    (hparent : (t.kind child).isComment ∨ t.acceptsChildren parent) :
    ∃ t', t.append parent child = .ok t' := by
  have hchild' : (t.get child).kind.isNamespaceDefinition = false := hchild
  have hparent' : (!(t.get child).kind.isComment && !t.acceptsChildren parent) = false := by
    rcases hparent with h | h
    · have : (t.get child).kind.isComment := h
      simp [this]
    · simp [h]
  simp [append, hchild', hparent']

section

variable (h : t.append parent child = .ok t')

include h

theorem children_append (hparent : parent < t.size) (x : PairId) :
    t'.children x = if x = parent then t.children x ++ [child] else t.children x := by
  obtain ⟨isChoice, rfl⟩ := append_eq_ok h
  have hchild : ∀ y, ((t.modify child fun p => { p with parent := some parent, isChoice }).get y).children =
      t.children y := fun y => modify_eq_of_keeps Pair.children t child y fun _ => rfl
  rw [children, get_modify]
  by_cases hx : x = parent
  · subst hx
    rw [if_pos ⟨rfl, by rwa [size_modify]⟩, if_pos rfl, hchild]
  · rw [if_neg fun h => hx h.1, if_neg hx, hchild]

theorem contentChildren_append (hparent : parent < t.size) (x : PairId) :
    t'.contentChildren x = t.contentChildren x ++
      if x = parent ∧ (t.kind child).isComment = false then [child] else [] := by
  have hkind : ∀ c, t'.kind c = t.kind c := fun c =>
    append_eq_of_keeps Pair.kind h c fun _ _ _ _ => rfl
  simp only [contentChildren, children_append h hparent, hkind]
  by_cases hx : x = parent
  · cases hcomment : (t.kind child).isComment <;> simp [hx, hcomment]
  · simp [hx]

theorem said_append (x : PairId) : (t'.get x).said = (t.get x).said :=
  append_eq_of_keeps Pair.said h x fun _ _ _ _ => rfl

theorem append_same (hparent : parent < t.size) :
    SameOutside root (fun x => x = parent ∧ (t.kind child).isComment = false) t t' where
  size_le := (size_append h).symm.le
  said_eq x _ _ := said_append h x
  children_eq x _ _ hx := by rw [contentChildren_append h hparent, if_neg hx, append_nil]

end

theorem Settled.append (hsettled : t.Settled root) (h : t.append parent child = .ok t')
    (hparent : parent < t.size) (hroot : root ≤ child) (hchild : child < t.size) : t'.Settled root where
  children_mem x hx c hc := by
    rw [size_append h]
    rw [children_append h hparent] at hc
    split at hc
    · rcases mem_append.mp hc with hc | hc
      · exact hsettled.children_mem x hx c hc
      · rw [mem_singleton.mp hc]
        exact ⟨hroot, hchild⟩
    · exact hsettled.children_mem x hx c hc
  finished x hx hlt := by
    rw [size_append h] at hlt
    exact (hsettled.finished x hx hlt).of_said (said_append h x)

theorem Settled.exists_add_append (h : t.Settled root) (pair : Pair) (hchildren : pair.children = [])
    (hfinished : pair.Finished) (hdefinition : pair.kind.isNamespaceDefinition = false) (hroot : root ≤ parent)
    (hparent : parent < t.size) (haccepts : pair.kind.isComment ∨ t.acceptsChildren parent) :
    ∃ tree, (t.add pair).2.append parent t.size = .ok tree ∧ tree.Settled root ∧
      SameOutside root (fun x => x = parent ∧ pair.kind.isComment = false) t tree ∧
      (tree.get t.size).said = pair.said ∧ tree.contentChildren t.size = [] ∧
      tree.contentChildren parent = t.contentChildren parent ++
        if pair.kind.isComment = false then [t.size] else [] := by
  have hget : (t.add pair).2.get t.size = pair := get_add_self t pair
  have hkind : (t.add pair).2.kind t.size = pair.kind := congrArg Pair.kind hget
  have hadded := h.add_same pair
  have hsaid := hadded.said_eq parent hroot hparent
  have hparentAdded : parent < (t.add pair).2.size := hparent.trans_le hadded.size_le
  obtain ⟨tree, happend⟩ : ∃ tree, (t.add pair).2.append parent t.size = .ok tree := by
    apply exists_append
    · rw [hkind]
      exact hdefinition
    · rw [hkind, acceptsChildren_eq_of_said hsaid]
      exact haccepts
  have happended := contentChildren_append happend hparentAdded
  rw [hkind] at happended
  refine ⟨tree, happend, ?_, ?_, ?_, ?_, ?_⟩
  · exact (h.add hchildren hfinished).append happend hparentAdded (hroot.trans hparent.le) (lt_size_add t pair)
  · refine (hadded.mono fun _ _ _ => False.elim).trans (append_same happend hparentAdded) fun x _ _ hx => ?_
    rwa [hkind] at hx
  · rw [said_append happend, hget]
  · rw [happended, if_neg fun hx => ne_of_gt hparent hx.1, contentChildren_add_self t hchildren]
    rfl
  · rw [happended, hadded.children_eq parent hroot hparent not_false]
    simp only [true_and]

theorem Settled.mem_preorderTo (h : t.Settled root) {n : Nat} {y : PairId} (hx : root ≤ x ∧ x < t.size)
    (hy : y ∈ t.preorderTo n x) : root ≤ y ∧ y < t.size := by
  induction n generalizing x with
  | zero => cases hy
  | succ n ih =>
    rcases mem_cons.mp hy with rfl | hy
    · exact hx
    · obtain ⟨c, hc, hy⟩ := mem_flatMap.mp hy
      rw [Pair.held, (h.finished x hx.1 hx.2).items_eq, Option.getD_none, append_nil] at hc
      exact ih (h.children_mem x hx.1 c hc) hy

end PairTree

end PairMarkup
