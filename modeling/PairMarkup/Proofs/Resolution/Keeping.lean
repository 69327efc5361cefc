import PairMarkup.Proofs.Resolution.Coverage
import PairMarkup.Proofs.Resolution.Edits

namespace PairMarkup

open List PairTree

/-- Something in a pair that the walk leaves as it is, unless it handles the pair. -/
structure Pair.Lasts {α : Type} (g : Pair → α) : Prop where
  choices : ∀ f pair, g (Pair.mapChoices f pair) = g pair
  info : ∀ f pair, g (Pair.mapInfo f pair) = g pair
  tied : ∀ pair definition, pair.kind.isAliasUsage = true →
    g { pair with kind := .aliasUsage (some definition) } = g pair
  likened : ∀ pair valueKind, pair.kind.isAliasUsage = true → g { pair with valueKind } = g pair
  emptied : ∀ pair, pair.valueKind = .object → g { pair with valueKind := .empty } = g pair
  moved : ∀ pair parent, g { pair with parent } = g pair
  split : ∀ pair name children, pair.kind.isScope = true →
    g { pair with name, children, valueKind := .object } = g pair

/-- Something in a pair that the walk leaves as it is, also when it handles the pair. -/
structure Pair.Stays {α : Type} (g : Pair → α) : Prop extends Pair.Lasts g where
  located : ∀ pair namespaceUri, g { pair with namespaceUri } = g pair
  bound : ∀ pair definition definition' place, pair.kind = .parameter definition place →
    g { pair with kind := .parameter definition' place } = g pair

variable {handled : Prop} {α : Type} {g : Pair → α} {a b : Pair}

theorem Pair.Lasts.of_change (hg : Pair.Lasts g) (hnot : ¬ handled) (h : a.Change handled b) : g b = g a := by
  cases h with
  | inform f => exact hg.info f a
  | tie definition husage => exact hg.tied a definition husage
  | liken valueKind husage => exact hg.likened a valueKind husage
  | empty hobject => exact hg.emptied a hobject
  | locate uri hhandled => exact absurd hhandled hnot
  | bind definition hhandled _ => exact absurd hhandled hnot

theorem Pair.Stays.of_change (hg : Pair.Stays g) (h : a.Change handled b) : g b = g a := by
  cases h with
  | locate uri _ => exact hg.located a uri
  | bind definition _ hkind => exact hg.bound a _ definition _ hkind
  | inform f => exact hg.info f a
  | tie definition husage => exact hg.tied a definition husage
  | liken valueKind husage => exact hg.likened a valueKind husage
  | empty hobject => exact hg.emptied a hobject

/-- The kind of value without what the walk makes of it: a block may turn out to be empty,
    and usages and scopes are given a kind of value. -/
def Pair.lastingValueKind (pair : Pair) : ValueKind :=
  if pair.kind.isAliasUsage || pair.kind.isScope then .none
  else if pair.valueKind = .object then .empty
  else pair.valueKind

/-- All of a pair that stays. -/
def Pair.lasting (pair : Pair) : Pair :=
  { pair with
    kind := pair.kind.shape
    name := if pair.kind.isScope then none else pair.name
    namespaceUri := none
    valueKind := pair.lastingValueKind
    children := []
    parent := none }

theorem PairTree.lt_size_of_parameter {t : PairTree} {x : PairId} (h : (t.kind x).isParameter) : x < t.size :=
  lt_size_of_kind (by simp [Kind.not_comment_of_parameter h])

section

variable {a b : Pair} (h : a.lasting = b.lasting)

include h

theorem Pair.flag_eq_of_lasting {α : Type} {f : Kind → α} (hshape : ∀ kind, f kind.shape = f kind) :
    f a.kind = f b.kind := by
  rw [← hshape, ← hshape b.kind]
  exact congrArg (fun pair => f pair.kind) h

theorem Pair.items_eq_of_lasting : a.items = b.items :=
  show a.lasting.items = b.lasting.items from congrArg Pair.items h

theorem Pair.nsPrefix_eq_of_lasting : a.nsPrefix = b.nsPrefix :=
  show a.lasting.nsPrefix = b.lasting.nsPrefix from congrArg Pair.nsPrefix h

theorem Pair.delimiter_eq_of_lasting : a.delimiter = b.delimiter :=
  show a.lasting.delimiter = b.lasting.delimiter from congrArg Pair.delimiter h

/-- Of a pair that is neither a usage nor a scope, no kind of value but that of a block
    comes or goes. -/
theorem Pair.valueKind_eq_of_lasting (husage : a.kind.isAliasUsage = false)
    (hscope : a.kind.isScope = false) {valueKind : ValueKind} (hobject : valueKind ≠ .object)
    (hempty : valueKind ≠ .empty) : a.valueKind = valueKind ↔ b.valueKind = valueKind := by
  have hkind : a.lastingValueKind = b.lastingValueKind := congrArg Pair.valueKind h
  have husage' := (Pair.flag_eq_of_lasting h Kind.isAliasUsage_shape).symm.trans husage
  have hscope' := (Pair.flag_eq_of_lasting h Kind.isScope_shape).symm.trans hscope
  simp only [Pair.lastingValueKind, husage, husage', hscope, hscope', Bool.or_self, Bool.false_eq_true,
    if_false] at hkind
  constructor <;> intro hvalue <;> rw [hvalue, if_neg hobject] at hkind <;> split at hkind <;> simp_all

end

theorem Pair.lasting_stays : Pair.Stays Pair.lasting where
  choices f pair := by
    unfold mapChoices
    split
    · rename_i hkind
      simp [lasting, lastingValueKind, hkind, Kind.shape, Kind.core, Kind.isScope, Kind.isAliasUsage]
    · rfl
  info f pair := by
    unfold mapInfo
    split
    · rename_i hkind
      simp [lasting, lastingValueKind, hkind, Kind.shape, Kind.isScope, Kind.isAliasUsage]
    · rfl
  tied pair definition husage := by
    cases hkind : pair.kind <;> simp [hkind, Kind.isAliasUsage] at husage
    simp [lasting, lastingValueKind, hkind, Kind.shape, Kind.isScope, Kind.isAliasUsage]
  likened pair valueKind husage := by
    simp only [lasting, lastingValueKind, husage, Bool.true_or, if_true]
  emptied pair hobject := by
    simp only [lasting, lastingValueKind, hobject, if_true, reduceCtorEq, if_false]
  moved _ _ := rfl
  split pair name children hscope := by
    simp only [lasting, lastingValueKind, hscope, Bool.or_true, if_true]
  located _ _ := rfl
  bound pair definition definition' place hkind := by
    simp [lasting, lastingValueKind, hkind, Kind.shape, Kind.core, Kind.isScope, Kind.isAliasUsage]

namespace Progress

open PairTree

/-- The pairs that were there before are the same in one respect. -/
structure Keeps {α : Type} (g : Pair → α) (p p' : Progress) : Prop where
  size_le : p.tree.size ≤ p'.tree.size
  same : ∀ x, x < p.tree.size → g (p'.tree.get x) = g (p.tree.get x)

variable {α : Type} {g : Pair → α} {p p' p'' : Progress}

theorem Keeps.trans (h : Keeps g p p') (h' : Keeps g p' p'') : Keeps g p p'' where
  size_le := h.size_le.trans h'.size_le
  same x hx := (h'.same x (hx.trans_le h.size_le)).trans (h.same x hx)

section

variable {reports : Option Branch → Code → PairId → Prop} {handles : PairId → Prop} {x : PairId}

theorem Edit.size_le (h : Edit reports handles p p') : p.tree.size ≤ p'.tree.size := by
  cases h with
  | book hset _ => exact le_of_eq (by rw [tree, tree, hset])
  | @report branch _ _ _ _ _ =>
    cases branch with
    | none => exact le_rfl
    | some branch => exact (size_modify ..).symm.le
  | change _ => exact (size_modify ..).symm.le
  | split id hwf =>
    by_cases hnamed : p.tree.NamedScope id
    · exact (isSplit_splitScope hwf hnamed).size_eq ▸ Nat.le_succ _
    · exact (congrArg size (splitScope_of_not hnamed)).symm.le

variable (hg : Pair.Lasts g) (hchange : ∀ {a b : Pair}, a.Change (handles x) b → g b = g a)

include hg hchange

theorem Edit.same (h : Edit reports handles p p') (hx : x < p.tree.size) : g (p'.tree.get x) = g (p.tree.get x) := by
  have hmodify : ∀ {id : PairId} {f : Pair → Pair}, (x = id → g (f (p.tree.get id)) = g (p.tree.get id)) →
      g ((p.tree.modify id f).get x) = g (p.tree.get x) := by
    intro id f hf
    rw [get_modify]
    split
    · rename_i hself
      rw [hself.1]
      exact hf hself.1
    · rfl
  cases h with
  | book hset _ => rw [tree, tree, hset]
  | @report branch _ _ _ _ _ =>
    cases branch with
    | none => rfl
    | some branch => exact hmodify fun _ => hg.choices _ _
  | @change id f h =>
    refine hmodify fun hself => ?_
    subst hself
    exact hchange h
  | split id hwf =>
    by_cases hnamed : p.tree.NamedScope id
    · have hsplit : p.tree.IsSplit (p.splitScope id).tree id := isSplit_splitScope hwf hnamed
      by_cases hxid : x = id
      · rw [hxid, hsplit.scope]
        exact hg.split _ _ _ hnamed.1
      · by_cases hmem : x ∈ p.tree.children id
        · rw [hsplit.child x hmem]
          exact hg.moved _ _
        · rw [hsplit.other x hx.ne hxid hmem]
    · exact congrArg (fun t : PairTree => g (t.get x)) (splitScope_of_not hnamed)

omit hg hchange in
theorem Edits.size_le (h : Edits reports handles p p') : p.tree.size ≤ p'.tree.size := by
  induction h with
  | refl => exact le_rfl
  | tail _ hedit ih => exact ih.trans hedit.size_le

theorem Edits.same (h : Edits reports handles p p') (hx : x < p.tree.size) :
    g (p'.tree.get x) = g (p.tree.get x) := by
  induction h with
  | refl => rfl
  | tail hedits hedit ih =>
    exact (hedit.same hg hchange (hx.trans_le (Edits.size_le hedits))).trans ih

end

theorem Edits.keeps {reports : Option Branch → Code → PairId → Prop} (hg : Pair.Lasts g)
    (h : Edits reports (fun _ => False) p p') : Keeps g p p' :=
  ⟨h.size_le, fun _ hx => h.same hg (hg.of_change id) hx⟩

section

variable (hg : Pair.Lasts g)

include hg

section

variable (p : Progress) (branch : Option Branch)

theorem report_keeps (code : Code) (arguments : List String)
    (subject : PairId) (span : Span) : Keeps g p (p.report branch code arguments subject span) := by
  have hedits : Edits (fun _ _ _ => True) (fun _ => False) p (p.report branch code arguments subject span) :=
    .single (.report arguments span trivial)
  exact hedits.keeps hg

theorem reportName_keeps (code : Code) (subject : PairId) :
    Keeps g p (p.reportName branch code subject) := report_keeps hg p branch code _ _ _

theorem announce_keeps (id : PairId) : Keeps g p (p.announce branch id) :=
  (announce_edits (fun _ _ _ _ => trivial) p branch id).keeps hg

end

theorem beginPair_keeps (hwf : p.tree.WellFormed) (branch : Option Branch) (id : PairId) :
    Keeps g p (p.beginPair branch id) :=
  (beginPair_edits (fun _ _ _ _ => trivial) hwf branch id).keeps hg

/-- What the kind of a pair asks for is noted at the pair alone. -/
theorem noteKind_same (p : Progress) (branch : Option Branch) (inner : Scope) {id x : PairId}
    (hx : x < p.tree.size) (hne : x ≠ id) :
    g ((p.noteKind branch inner id).tree.get x) = g (p.tree.get x) := by
  have hedits : Edits (fun _ _ _ => True) (id = ·) p (p.noteKind branch inner id) :=
    noteKind_edits (fun _ _ _ _ => trivial) rfl (fun _ _ => trivial) inner
  exact hedits.same hg (hg.of_change hne.symm) hx

end

end Progress

namespace WalkAction

open Progress Config

variable {α : Type} {g : Pair → α} {p : Progress} (action : WalkAction) {x : PairId}

/-- A step of the walk changes something that lasts only at a pair that it handles, and
    not there if that is a definition or a usage. -/
theorem perform_same (hg : Pair.Lasts g) (hwf : p.tree.WellFormed) (action : WalkAction)
    (hx : x < p.tree.size) (hother : ∀ n context, action = .visit (n + 1) context x →
      (p.tree.kind x).isAliasDefinition ∨ (p.tree.kind x).isAliasUsage) :
    g ((action.perform p).2.tree.get x) = g (p.tree.get x) := by
  refine (action.perform_edits hwf).same hg (hg.of_change ?_) hx
  rintro ⟨n, context, hvisit, hdef, husage⟩
  rcases hother n context hvisit with h | h
  · exact Bool.false_ne_true (hdef.symm.trans h)
  · exact Bool.false_ne_true (husage.symm.trans h)

theorem perform_keeps (hg : Pair.Stays g) (hwf : p.tree.WellFormed) (action : WalkAction) :
    Keeps g p (action.perform p).2 :=
  ⟨(action.perform_edits hwf).size_le, fun _ hx => (action.perform_edits hwf).same hg.toLasts hg.of_change hx⟩

theorem ofVisit_handled (n : Nat) (context : Context) {id : PairId}
    (hdef : (p.tree.kind id).isAliasDefinition = false) :
    (ofVisit n context id p).2.handled = id :: p.handled := by
  simp only [ofVisit, hdef, Bool.false_eq_true, if_false]
  exact (ofHandling_advances n context id p).1

theorem perform_handled (p : Progress) :
    (action.perform p).2.handled = p.handled ∨ ∃ n context id, action = .visit (n + 1) context id ∧
      (p.tree.kind id).isAliasDefinition = false ∧ (action.perform p).2.handled = id :: p.handled := by
  cases action with
  | visit n context id =>
    cases n with
    | zero => exact .inl rfl
    | succ n =>
      by_cases hdef : (p.tree.kind id).isAliasDefinition = true
      · refine .inl ?_
        simp only [WalkAction.perform, ofVisit, hdef, if_true]
        split
        · rfl
        · exact (ofEntering_advances n _ id p).1
      · rw [Bool.not_eq_true] at hdef
        exact .inr ⟨n, context, id, rfl, hdef, ofVisit_handled n context hdef⟩
  | settle id => exact .inl (settleValueKind_noted p id).handled_eq
  | check branch u e => exact .inl (checkArguments_noted p branch u e).handled_eq
  | leave id outer => exact .inl (settleValueKind_noted p id).handled_eq
  | _ => exact .inl rfl

theorem mem_handled_perform_iff (p : Progress) (h : ¬ ∃ n context, action = .visit (n + 1) context x) :
    x ∈ (action.perform p).2.handled ↔ x ∈ p.handled := by
  rcases action.perform_handled p with heq | ⟨n, context, id, rfl, -, heq⟩
  · rw [heq]
  · rw [heq, mem_cons, or_iff_right]
    rintro rfl
    exact h ⟨n, context, rfl⟩

end WalkAction

namespace Config

open Progress

variable {α : Type} {g : Pair → α} {set : ModuleSet} {m : Config}

theorem start_keeps (hg : Pair.Lasts g) (set : ModuleSet) : Keeps g (initial set) (start set).progress :=
  (start_edits fun _ _ _ _ => trivial).keeps hg

theorem wellFormed_of_leads (hset : set.Parsed) (hm : Leads (start set) m) : m.progress.tree.WellFormed :=
  (leads_tracked hset hm).2.covered.wellFormed

theorem leads_keeps (hset : set.Parsed) (hg : Pair.Stays g) (hm : Leads (start set) m) :
    Keeps g (initial set) m.progress := by
  refine induction_on (P := fun m => Keeps g (initial set) m.progress)
    (start_keeps hg.toLasts set) (fun m m' hm hkeeps hstep => hkeeps.trans ?_) hm
  have hwf := wellFormed_of_leads hset hm
  obtain ⟨action, rest, p⟩ := hstep
  exact action.perform_keeps hg hwf

end Config

/-- The pair was handled, or it is a definition that was entered. -/
def Progress.Met (p : Progress) (x : PairId) : Prop := x ∈ p.handled ∨ x ∈ p.entered

/-- What a step may do to the tree as it is written: nothing, or to split a scope that is met
    just now. -/
inductive Progress.Advances (p p' : Progress) : Prop
  | same : p'.tree.shape = p.tree.shape → (∀ x, p.Met x → p'.Met x) → Advances p p'
  | split {s : PairId} : p.tree.NamedScope s → ¬ p.Met s → p'.Met s →
      p'.tree.shape = (p.tree.splitScope s).shape → (∀ x, p.Met x → p'.Met x) → Advances p p'

namespace Progress

variable {p p' : Progress} {x : PairId}

theorem Met.of_handled {id : PairId} (hhandled : p'.handled = id :: p.handled)
    (hentered : p'.entered = p.entered) (h : p.Met x) : p'.Met x := by
  refine h.imp (fun h => ?_) (hentered ▸ ·)
  rw [hhandled]
  exact mem_cons_of_mem _ h

theorem Alike.met_iff (h : Alike p p') : p'.Met x ↔ p.Met x := by
  rw [Met, h.handled_eq, h.entered_eq, Met]

theorem Alike.met (h : Alike p p') (hx : p.Met x) : p'.Met x := h.met_iff.mpr hx

end Progress

namespace Worklist

open Progress

theorem Step.advances {root : Scope} {passes : PairId → PairId → Prop} {modules : List PairId}
    {size₀ : Nat} {o o' : Worklist} (hstep : Step root passes o o') (h : Tracked modules size₀ root o) :
    Advances o.progress o'.progress := by
  -- A usage that was handled: nothing but ties and marks may follow.
  have husage : ∀ {p p₁ p₂ : Progress} {u : PairId}, Noted { p with handled := u :: p.handled } p₁ →
      Alike p₁ p₂ → Advances p p₂ := by
    intro p p₁ p₂ u hnoted halike
    refine .same (halike.shape_eq.trans hnoted.shape_eq) fun x hx => halike.met ?_
    exact hx.of_handled hnoted.handled_eq hnoted.entered_eq
  cases hstep with
  | note _ hnoted => exact .same hnoted.shape_eq fun _ => hnoted.alike.met
  | close hnoted => exact .same hnoted.shape_eq fun _ => hnoted.alike.met
  | skip => exact .same rfl fun _ => id
  | postpone => exact .same rfl fun _ => id
  | enter _ _ hnoted =>
    refine .same hnoted.shape_eq fun x hx => hnoted.alike.met ?_
    exact hx.imp_right (mem_cons_of_mem _)
  | @handle v l p p' hdef _ hnoted =>
    have hmet : ∀ x, p.Met x → p'.Met x := fun x hx => hx.of_handled hnoted.handled_eq hnoted.entered_eq
    by_cases hnamed : p.tree.NamedScope v.id
    · have hunmet : v.id ∉ p.handled ∧ v.id ∉ p.entered := PairTree.Covered.not_met_of_plain h.covered hdef
      refine .split hnamed (not_or.mpr hunmet) (.inl ?_) hnoted.shape_eq hmet
      rw [hnoted.handled_eq]
      exact mem_cons_self
    · have hsplit := congrArg shape (splitScope_of_not hnamed)
      exact .same (hnoted.shape_eq.trans hsplit) hmet
  | unbound _ _ hnoted => exact husage hnoted (reportName_alike ..)
  | @circular v l p p₁ branch e husage' _ _ hnoted =>
    exact husage hnoted ((handled_tie_alike husage' hnoted e).trans (foldl_markCircular_marks ..).toAlike)
  | @settled v l p p₁ e husage' _ _ _ hnoted => exact husage hnoted (handled_tie_alike husage' hnoted e)
  | @follow v l p p₁ p₂ p' e husage' _ _ _ hnoted haround hopen =>
    have htied := (handled_tie_alike husage' hnoted e).trans haround.alike
    refine .same (hopen.shape_eq.trans (htied.shape_eq.trans hnoted.shape_eq)) fun x hx => hopen.alike.met ?_
    exact (htied.met (hx.of_handled hnoted.handled_eq hnoted.entered_eq)).imp_right (mem_cons_of_mem _)

end Worklist

namespace Config

open Progress

variable {set : ModuleSet}

theorem Step.advances (hset : set.Parsed) {m m' : Config} (hstep : Step m m')
    (hm : Leads (start set) m) : Advances m.progress m'.progress := by
  obtain ⟨horderly, htracked⟩ := leads_tracked hset hm
  cases (hstep.worklist_of_tracked hm horderly htracked).advances htracked with
  | same hshape hmet => exact .same hshape hmet
  | split hnamed hunmet hnew hshape hmet => exact .split hnamed hunmet hnew hshape hmet

/-- Whatever tells kinds of pairs apart, as they are written, but not elements, finds in
    the tree what it found at first. -/
theorem leads_flag {α : Type} (hset : set.Parsed) {f : Kind → α}
    (hshape : ∀ kind, f kind.shape = f kind) (hflag : f .element = f .comment) {m : Config}
    (hm : Leads (start set) m) (x : PairId) : f (m.progress.tree.kind x) = f (set.tree.kind x) := by
  refine induction_on (P := fun m => f (m.progress.tree.kind x) = f (set.tree.kind x))
    (flag_eq_of_shape (start_noted set).shape_eq hshape x) (fun m m' hm hP hstep => Eq.trans ?_ hP) hm
  cases hstep.advances hset hm with
  | same heq => exact flag_eq_of_shape heq hshape x
  | split hnamed _ _ heq =>
    have hsplit := isSplit_splitScope (wellFormed_of_leads hset hm) hnamed
    exact (flag_eq_of_shape heq hshape x).trans (hsplit.flag_eq hflag x)

end Config

end PairMarkup
