import PairMarkup.Proofs.Choices.Documents
import PairMarkup.Proofs.Choices.Records
import PairMarkup.Proofs.Resolution.Splitting

namespace PairMarkup

open List Option Progress Kind

namespace PairTree

variable {t₀ t : PairTree} {x p c doc : PairId} {branch : Branch} {choices : ChoiceTree}

/-- The alternatives below the pair are told apart: it is a choice, and no scope that is to be split. -/
def Forks (t : PairTree) (c : PairId) : Prop := t.offers c = true ∧ ¬ t.NamedScope c

instance (t : PairTree) (c : PairId) : Decidable (t.Forks c) := inferInstanceAs (Decidable (_ ∧ _))

/-- The pair lies on the branch: going up from it, the first choice that forks is that of the branch, and it is
    come to from the alternative of the branch. No alias definition is on the way. -/
inductive OnBranch (t : PairTree) : PairId → Branch → Prop
  | alternative {b c doc : PairId} (hparent : t.parent? b = some c) (hforks : t.Forks c)
      (hdoc : t.enclosingDocument? c = some doc) (hdef : (t.kind b).isAliasDefinition = false) :
      OnBranch t b ⟨doc, c, b⟩
  | inside {x p : PairId} {branch : Branch} (hparent : t.parent? x = some p) (hforks : ¬ t.Forks p)
      (hdef : (t.kind x).isAliasDefinition = false) (hup : OnBranch t p branch) : OnBranch t x branch

theorem OnBranch.lt_size (h : t.OnBranch x branch) : x < t.size := by
  cases h with
  | alternative hparent => exact lt_size_of_parent hparent
  | inside hparent => exact lt_size_of_parent hparent

theorem OnBranch.not_definition (h : t.OnBranch x branch) : (t.kind x).isAliasDefinition = false := by
  cases h with
  | alternative _ _ _ hdef => exact hdef
  | inside _ _ hdef => exact hdef

/-- The branch that the first of the pairs lies on, where each of them is below the next one. -/
def branchAlong? (t : PairTree) : List PairId → Option Branch
  | x :: p :: up =>
    if (t.kind x).isAliasDefinition then none
    else if t.Forks p then (t.enclosingDocument? p).map (⟨·, p, x⟩)
    else t.branchAlong? (p :: up)
  | _ => none

/-- The branch that a pair lies on can be found on the way up from it. -/
theorem WellFormed.onBranch_iff (hwf : t.WellFormed) :
    t.OnBranch x branch ↔ t.branchAlong? (x :: t.ancestors x) = some branch := by
  induction x using hwf.induction_up with
  | root x hnone =>
    rw [ancestors_eq_nil hnone]
    refine ⟨fun hon => ?_, fun hon => by cases hon⟩
    cases hon with
    | alternative hparent => cases hnone.symm.trans hparent
    | inside hparent => cases hnone.symm.trans hparent
  | child x p hp ih =>
    rw [hwf.ancestors_eq_cons hp, branchAlong?]
    by_cases hdef : (t.kind x).isAliasDefinition = true
    · rw [if_pos hdef]
      exact ⟨fun hon => absurd hdef (by simp [hon.not_definition]), fun hon => by cases hon⟩
    rw [if_neg hdef]
    rw [Bool.not_eq_true] at hdef
    by_cases hforks : t.Forks p
    · rw [if_pos hforks, map_eq_some_iff]
      constructor
      · intro hon
        cases hon with
        | alternative hparent _ hdoc =>
          obtain rfl := some.inj (hp.symm.trans hparent)
          exact ⟨_, hdoc, rfl⟩
        | inside hparent hnot =>
          obtain rfl := some.inj (hp.symm.trans hparent)
          exact absurd hforks hnot
      · rintro ⟨doc, hdoc, rfl⟩
        exact .alternative hp hforks hdoc hdef
    · rw [if_neg hforks, ← ih]
      refine ⟨fun hon => ?_, .inside hp hforks hdef⟩
      cases hon with
      | alternative hparent hyes =>
        obtain rfl := some.inj (hp.symm.trans hparent)
        exact absurd hyes hforks
      | inside hparent _ _ hup =>
        obtain rfl := some.inj (hp.symm.trans hparent)
        exact hup

theorem isDocument_of_enclosing (h : t.enclosingDocument? x = some doc) : (t.kind doc).isDocument :=
  find?_some (p := fun a => (t.kind a).isDocument) h

theorem Charted.hasChoice (h : t.Charted) (hwf : t.WellFormed) (hon : t.OnBranch x branch) : t.HasChoice branch := by
  induction hon with
  | alternative _ hforks hdoc =>
    obtain ⟨choices, hchoices⟩ := exists_choices (isDocument_of_enclosing hdoc)
    exact ⟨choices, hchoices, ((h.holds _ choices hchoices).mem_nodes_iff hwf).mpr ⟨hforks.1, hdoc⟩⟩
  | inside _ _ _ _ ih => exact ih

/-- The tree `t` is `t₀` at a later moment: scopes may be split and choices may have more noted, and what is
    written in the pairs is the same. -/
structure Outlives (t₀ t : PairTree) : Prop extends Unfolds t₀ t where
  wellFormed₀ : t₀.WellFormed
  wellFormed : t.WellFormed
  annotates : t₀.Annotates t
  isDocument_eq : ∀ x, (t.kind x).isDocument = (t₀.kind x).isDocument
  isChoice_eq : ∀ x, x < t₀.size → (t.get x).isChoice = (t₀.get x).isChoice
  offers_eq : ∀ x, x < t₀.size → t.offers x = t₀.offers x
  items_eq : ∀ x, x < t₀.size → (t.get x).items = (t₀.get x).items

namespace Outlives

variable (h : t₀.Outlives t)

include h

theorem enclosingDocument?_eq (hx : x < t₀.size) : t.enclosingDocument? x = t₀.enclosingDocument? x := by
  rw [enclosingDocument?, enclosingDocument?, ← h.ancestors_eq x hx, find?_filter]
  congr 1
  funext a
  rw [h.isDocument_eq]
  by_cases ha : a < t₀.size
  · simp [ha]
  · rw [kind, get_eq_default (Nat.le_of_not_lt ha)]
    simp [ha, show (default : Pair).kind.isDocument = false from rfl]

/-- A document knows a choice if it is one that was nested in it at first. -/
theorem isSome_find?_iff (hcharted : t₀.Charted) (hchoices : (t.kind doc).choices? = some choices) :
    (choices.find? c).isSome ↔ t₀.offers c ∧ t₀.enclosingDocument? c = some doc := by
  have hdoc : (t₀.kind doc).isDocument := by
    rw [← h.isDocument_eq, isDocument_eq_isSome, hchoices]
    rfl
  obtain ⟨choices₀, hchoices₀⟩ := exists_choices hdoc
  obtain ⟨choices', hchoices', hmore⟩ := h.annotates doc choices₀ hchoices₀
  obtain rfl := some.inj (hchoices'.symm.trans hchoices)
  rw [ChoiceTree.isSome_find?_iff, hmore.nodes_eq]
  exact (hcharted.holds doc choices₀ hchoices₀).mem_nodes_iff h.wellFormed₀

/-- Pairs that offer alternatives are tracked as they were nested at first. -/
theorem trackedIn?_eq (hcharted : t₀.Charted) (hx : x < t₀.size) :
    trackedIn? t x = if t₀.offers x then t₀.enclosingDocument? x else none := by
  rw [trackedIn?, show (t.get x).delimiter.isChoice = t₀.offers x from h.offers_eq x hx, h.enclosingDocument?_eq hx]
  split
  · rename_i hoffers
    cases hdoc : t₀.enclosingDocument? x with
    | none => rfl
    | some doc =>
      obtain ⟨choices₀, hchoices₀⟩ := exists_choices (isDocument_of_enclosing hdoc)
      obtain ⟨choices, hchoices, -⟩ := h.annotates doc choices₀ hchoices₀
      obtain ⟨implicit, hkind⟩ := choices?_eq_some hchoices
      have hknown := (h.isSome_find?_iff hcharted hchoices).mpr ⟨hoffers, hdoc⟩
      rw [filter_some, hkind]
      simp only [hknown, if_true]
  · rfl

theorem trackedIn?_added (hcharted : t₀.Charted) (hx : t₀.size ≤ x) : trackedIn? t x = none := by
  rw [trackedIn?]
  split
  · rw [filter_eq_none_iff]
    intro doc _
    split
    · rename_i choices implicit hkind
      rw [h.isSome_find?_iff hcharted (by rw [hkind]; rfl), offers_eq_false hx]
      simp
    · simp
  · rfl

end Outlives

end PairTree

open PairTree

/-- The walk is on the branch that the pair lies on in `t₀`, where an element that comes of a split stands for
    the scope. -/
def Context.OnBranchAt (t₀ t : PairTree) (context : Context) (x : PairId) : Prop :=
  ∀ s, t.origin? t₀.size x = some s → (t₀.kind s).isComment = false →
    ∀ branch, t₀.OnBranch s branch → context.branch = some branch

variable {t₀ : PairTree} {p : Progress}

theorem Context.onBranchAt_of_definition {x : PairId} (t : PairTree) (context : Context)
    (hdef : (t₀.kind x).isAliasDefinition) : context.OnBranchAt t₀ t x := by
  intro s hs _ branch hon
  rw [origin?_of_lt t (lt_size_of_definition hdef)] at hs
  obtain rfl := some.inj hs
  exact absurd hdef (by simp [hon.not_definition])

namespace PairTree.Outlives

variable {t₀ t : PairTree} {context : Context} {id c s : PairId} (h : t₀.Outlives t)

include h

theorem origin?_of_forks (hid : id < t.size) (horigin : t.origin? t₀.size id = some s) (hforks : t₀.Forks s) :
    id = s := by
  by_cases hold : id < t₀.size
  · rw [origin?_of_lt t hold] at horigin
    exact some.inj horigin
  · obtain ⟨-, scope, hscope, hnamed, -⟩ := h.added id (Nat.le_of_not_lt hold) hid
    rw [h.wellFormed.origin?_of_parent (Nat.le_of_not_lt hold) hscope, origin?_of_lt t hnamed.lt_size] at horigin
    obtain rfl := some.inj horigin
    exact absurd hnamed hforks.2

/-- To go on with what a pair holds is to stay on the right branch, as far as the pair it was come from does not
    fork or the branch is taken there. -/
theorem onBranchAt_held {next : Context} (hcharted : t₀.Charted) (hid : id < t.size)
    (honBranch : context.OnBranchAt t₀ t id) (hparent : t.parent? c = some id)
    (hstay : t₀.size ≤ c ∨ ¬ t₀.Forks id → next.branch = context.branch)
    (hfork : ∀ doc, c < t₀.size → t₀.parent? c = some id → t₀.Forks id → (t₀.kind c).isComment = false →
      t₀.enclosingDocument? id = some doc → next.branch = some ⟨doc, id, c⟩) : next.OnBranchAt t₀ t c := by
  intro s hs hcomment branch hon
  by_cases hnew : t₀.size ≤ c
  · rw [h.wellFormed.origin?_of_parent hnew hparent] at hs
    exact (hstay (.inl hnew)).trans (honBranch s hs hcomment branch hon)
  · have hold := Nat.lt_of_not_le hnew
    rw [origin?_of_lt t hold] at hs
    obtain rfl := some.inj hs
    have horigin := h.parent?_eq_origin? h.wellFormed₀ h.wellFormed hold hparent
    cases hon with
    | alternative hup hforks hdoc _ =>
      obtain rfl := h.origin?_of_forks hid (horigin.symm.trans hup) hforks
      exact hfork _ hold hup hforks hcomment hdoc
    | @inside _ p _ hup hforks _ hon =>
      have hcommentUp : (t₀.kind p).isComment = false := by
        rcases hcharted.admits _ p hup with hbad | hadmits
        · exact absurd hbad (by simp [hcomment])
        · exact hadmits.1
      refine (hstay (.inr fun hforksId => hforks ?_)).trans
        (honBranch p (horigin.symm.trans hup) hcommentUp branch hon)
      rw [origin?_of_lt t (lt_size_of_offers hforksId.1), hup] at horigin
      rwa [some.inj horigin]

/-- Alternatives are visited each on its own branch, and all else on the branch of the pair that holds it. -/
theorem visits_follow (hcharted : t₀.Charted) (hid : id < t.size) (honBranch : context.OnBranchAt t₀ t id)
    (hsplit : ¬ t.NamedScope id)
    (hitems : t₀.offers id → (t₀.kind id).isComment = false → (t₀.get id).items = none) :
    ∀ v ∈ visits t context id, v.2 < t.size ∧ v.1.OnBranchAt t₀ t v.2 := by
  intro v hv
  rcases mem_append.mp hv with hv | hv
  · obtain ⟨c, hc, rfl⟩ := mem_map.mp hv
    have hparent := h.wellFormed.mem_held_iff.mp (mem_held_of_mem_children hc)
    refine ⟨lt_size_of_parent hparent, h.onBranchAt_held hcharted hid honBranch hparent ?_ ?_⟩
    · intro hstay
      have hnone : (if (t.get c).isChoice then (trackedIn? t id).map (⟨·, id, c⟩) else none) =
          (none : Option Branch) := by
        rcases lt_or_ge c t₀.size with hold | hnew
        · have hnot := hstay.resolve_left (Nat.not_le.mpr hold)
          rw [show trackedIn? t id = none from ?_, map_none, ite_self]
          rcases lt_or_ge id t₀.size with hid₀ | hid₀
          · -- a scope that was split holds nothing that was there before
            have hoffers : t₀.offers id = false := by
              refine Bool.eq_false_iff.mpr fun hoffers => hnot ⟨hoffers, fun hnamed => ?_⟩
              exact Nat.not_lt.mpr (h.emptied id hnamed hsplit c hc) hold
            rw [h.trackedIn?_eq hcharted hid₀, hoffers]
            rfl
          · exact h.trackedIn?_added hcharted hid₀
        · rw [(h.added c hnew (lt_size_of_parent hparent)).1]
          rfl
      exact congrArg (or · context.branch) hnone
    · intro doc hold hup hforks hcomment hdoc
      have hchoice : (t.get c).isChoice := by
        rw [h.isChoice_eq c hold]
        rcases hcharted.admits c id hup with hbad | hadmits
        · exact absurd hbad (by simp [hcomment])
        · exact hadmits.2 hforks.1
      have htracked : trackedIn? t id = some doc := by
        rw [h.trackedIn?_eq hcharted (lt_size_of_offers hforks.1), hforks.1, if_pos rfl, hdoc]
      simp only [hchoice, htracked, if_true, map_some, some_or]
  · obtain ⟨c, hc, rfl⟩ := mem_map.mp hv
    have hparent := h.wellFormed.mem_held_iff.mp (mem_append_right _ hc)
    refine ⟨lt_size_of_parent hparent, h.onBranchAt_held hcharted hid honBranch hparent (fun _ => rfl) ?_⟩
    intro doc _ hup hforks hcomment _
    -- a choice has no parts
    rcases hcharted.admits c id hup with hbad | hadmits
    · exact absurd hbad (by simp [hcomment])
    · rw [h.items_eq id (lt_size_of_offers hforks.1), hitems hforks.1 hadmits.1] at hc
      cases hc

end PairTree.Outlives

/-- The action is to be done on the branch that its pair lies on, or else is about alias definitions. -/
def WalkAction.OnTrack (t₀ : PairTree) (p : Progress) : WalkAction → Prop
  | visit _ context id | held _ context id => id < p.tree.size ∧ context.OnBranchAt t₀ p.tree id
  | leave _ outer => ∀ d ∈ outer.getD [], (t₀.kind d.definition).isAliasDefinition = true
  | _ => True

structure Config.OnTrack (t₀ : PairTree) (m : Config) : Prop where
  actions : ∀ action ∈ m.agenda, action.OnTrack t₀ m.progress
  deferred : ∀ d ∈ m.progress.deferred.getD [], (t₀.kind d.definition).isAliasDefinition = true

theorem Config.OnTrack.nil (hdeferred : ∀ d ∈ p.deferred.getD [], (t₀.kind d.definition).isAliasDefinition) :
    Config.OnTrack t₀ ⟨[], p⟩ :=
  ⟨fun _ h => absurd h not_mem_nil, hdeferred⟩

theorem Config.OnTrack.append {agenda more : List WalkAction}
    (h : Config.OnTrack t₀ ⟨agenda, p⟩) (hmore : ∀ action ∈ more, action.OnTrack t₀ p) :
    Config.OnTrack t₀ ⟨agenda ++ more, p⟩ :=
  { h with actions := fun action haction =>
      (mem_append.mp haction).elim (h.actions action) (hmore action) }

namespace WalkAction

open Progress Config

variable {t₀ : PairTree} {p p' : Progress} {context : Context} {id : PairId} (n : Nat)

theorem OnTrack.of_origin {action : WalkAction} (h : action.OnTrack t₀ p) (hsize : p.tree.size ≤ p'.tree.size)
    (horigin : ∀ x, x < p.tree.size → p'.tree.origin? t₀.size x = p.tree.origin? t₀.size x) :
    action.OnTrack t₀ p' := by
  cases action with
  | visit n context id | held n context id =>
    refine ⟨h.1.trans_le hsize, fun s hs => h.2 s ?_⟩
    rwa [← horigin id h.1]
  | leave id outer => exact h
  | _ => trivial

theorem onTrack_visitAll {visits : List (Context × PairId)}
    (h : ∀ v ∈ visits, v.2 < p.tree.size ∧ v.1.OnBranchAt t₀ p.tree v.2) :
    ∀ action ∈ visitAll n visits, action.OnTrack t₀ p := by
  intro action haction
  obtain ⟨v, hv, rfl⟩ := mem_map.mp haction
  exact h v hv

/-- Wherever the walk may go on with what a pair holds, it does so on the right branches. -/
def Guides (t₀ : PairTree) (p : Progress) : Prop :=
  ∀ x, p.Met x → ∀ context : Context, context.OnBranchAt t₀ p.tree x →
    ∀ v ∈ visits p.tree context x, v.2 < p.tree.size ∧ v.1.OnBranchAt t₀ p.tree v.2

theorem ofEntering_onTrack (hdef : (t₀.kind id).isAliasDefinition) (hguides : Guides t₀ (ofEntering n context id p).2)
    (hdeferred : ∀ d ∈ p.deferred.getD [], (t₀.kind d.definition).isAliasDefinition) :
    Config.OnTrack t₀ ⟨(ofEntering n context id p).1, (ofEntering n context id p).2⟩ := by
  unfold ofEntering at *
  by_cases hentered : p.entered.contains id = true
  · simp only [hentered, if_true] at hguides ⊢
    exact .nil hdeferred
  simp only [hentered, Bool.false_eq_true, if_false] at hguides ⊢
  have hnoted := openDefinition_noted p context.branch id
  generalize p.openDefinition context.branch id = p' at *
  have hmet : p'.Met id := .inr (hnoted.entered_eq ▸ mem_cons_self)
  refine ⟨fun action haction => ?_, fun d hd => ?_⟩
  · rcases mem_append.mp haction with haction | haction
    · exact onTrack_visitAll n (hguides id hmet _ (Context.onBranchAt_of_definition _ _ hdef)) action haction
    · rcases mem_pair.mp haction with rfl | rfl
      · trivial
      · exact hdeferred
  · rw [hnoted.deferred_eq] at hd
    cases hd

theorem ofTie_onTrack (husage : (p.tree.kind id).isAliasUsage)
    (hfound : ∀ e, context.scope.aliasFor? (p.tree.get id).nameText = some e → (t₀.kind e).isAliasDefinition)
    (hguides : Guides t₀ (ofTie n context id p).2)
    (hdeferred : ∀ d ∈ p.deferred.getD [], (t₀.kind d.definition).isAliasDefinition) :
    Config.OnTrack t₀ ⟨(ofTie n context id p).1, (ofTie n context id p).2⟩ := by
  rcases ofTie_cases n context husage with ⟨found, q, halike, heq⟩ | ⟨e, q, he, halike, heq⟩
  · rw [heq]
    have hnone : Config.OnTrack t₀ ⟨[], q⟩ := .nil fun d hd => hdeferred d (halike.deferred_eq ▸ hd)
    refine hnone.append fun action haction => ?_
    obtain ⟨e, -, rfl⟩ := mem_map.mp haction
    trivial
  · rw [heq] at hguides ⊢
    refine OnTrack.append ?_ (forall_mem_singleton.mpr trivial)
    exact ofEntering_onTrack n (hfound e he) hguides (halike.deferred_eq ▸ hdeferred)

theorem ofVisit_onTrack (hwf : p.tree.WellFormed)
    (hkind : (p.tree.kind id).isAliasDefinition = (t₀.kind id).isAliasDefinition)
    (hfound : ∀ e, context.scope.aliasFor? (p.tree.get id).nameText = some e → (t₀.kind e).isAliasDefinition)
    (hself : id < (ofVisit n context id p).2.tree.size ∧ context.OnBranchAt t₀ (ofVisit n context id p).2.tree id)
    (hguides : Guides t₀ (ofVisit n context id p).2)
    (hdeferred : ∀ d ∈ p.deferred.getD [], (t₀.kind d.definition).isAliasDefinition) :
    Config.OnTrack t₀ ⟨(ofVisit n context id p).1, (ofVisit n context id p).2⟩ := by
  have hbegin := beginPair_noted p context.branch id
  cases hdef : (p.tree.kind id).isAliasDefinition with
  | true =>
    rw [hdef] at hkind
    simp only [ofVisit, hdef, if_true] at hguides ⊢
    cases hlater : p.deferred with
    | some deferred =>
      refine .nil fun d hd => ?_
      rw [hlater] at hdeferred
      rcases mem_append.mp hd with hd | hd
      · exact hdeferred d hd
      · obtain rfl := mem_singleton.mp hd
        exact hkind.symm
    | none =>
      simp only [hlater] at hguides
      exact ofEntering_onTrack n hkind.symm hguides hdeferred
  | false =>
    cases husage : (p.tree.kind id).isAliasUsage with
    | true =>
      rw [splitScope_of_usage husage] at hbegin
      rw [ofVisit_usage n context husage] at hself hguides ⊢
      refine OnTrack.append (ofTie_onTrack n ?_ (fun e he => hfound e ?_) hguides ?_) fun action haction => ?_
      · exact (PairTree.isAliasUsage_eq_of_shape hbegin.shape_eq id).trans husage
      · rwa [PairTree.nameText_eq_of_shape hbegin.shape_eq] at he
      · exact hbegin.deferred_eq ▸ hdeferred
      · rcases mem_pair.mp haction with rfl | rfl
        · exact hself
        · trivial
    | false =>
      rw [ofVisit_plain n context hwf hdef husage] at hself hguides ⊢
      have hnoted := noteKind_noted (p.beginPair context.branch id) context.branch
        ((p.beginPair context.branch id).tree.enter id context.scope) id
      refine ⟨fun action haction => ?_, fun d hd => hdeferred d ?_⟩
      · rcases mem_pair.mp haction with rfl | rfl
        · exact hself
        · trivial
      · exact (hnoted.deferred_eq.trans hbegin.deferred_eq) ▸ hd

end WalkAction

namespace Config

open Progress WalkAction

variable {set : ModuleSet} {m m' : Config}

theorem leads_annotates (hset : set.Parsed) (hm : Leads (start set) m) : set.tree.Annotates m.progress.tree := by
  refine induction_on (P := fun m => set.tree.Annotates m.progress.tree) ?_ (fun m m' hm h hstep => ?_) hm
  · have hedits : Edits (fun _ _ _ => True) (fun _ => True) (initial set) (start set).progress :=
      start_edits fun _ _ _ _ => trivial
    exact hedits.annotates
  · have hwf := wellFormed_of_leads hset hm
    obtain ⟨action, rest, p⟩ := hstep
    exact h.trans (action.perform_edits hwf).annotates

theorem leads_outlives (hset : set.Parsed) (hm : Leads (start set) m) : set.tree.Outlives m.progress.tree := by
  have hsame : ∀ x, x < set.tree.size → (m.progress.tree.get x).lasting = (set.tree.get x).lasting :=
    (leads_keeps hset Pair.lasting_stays hm).same
  refine ⟨leads_unfolds hset hm, hset.tree_parsed.wellFormed, wellFormed_of_leads hset hm, leads_annotates hset hm,
    leads_flag hset isDocument_shape rfl hm, fun x hx => ?_, fun x hx => ?_, fun x hx => ?_⟩
  · exact (congrArg Pair.isChoice (hsame x hx) :)
  · exact congrArg Delimiter.isChoice (Pair.delimiter_eq_of_lasting (hsame x hx))
  · exact Pair.items_eq_of_lasting (hsame x hx)

section

variable (hset : set.Parsed) (hcharted : set.tree.Charted)
  (hitems : ∀ x, set.tree.Rooted set.modules x → set.tree.offers x →
    (set.tree.kind x).isComment = false → (set.tree.get x).items = none)

include hset hcharted hitems

theorem leads_guides (hm : Leads (start set) m) : Guides set.tree m.progress := by
  intro x hx context honBranch
  have hrooted : m.progress.tree.Rooted set.modules x :=
    hx.elim ((hset.leads_rooted hm).handled x) ((hset.leads_rooted hm).entered x)
  have hlt := (leads_tracked hset hm).2.covered.toOwned.rooted_lt_size hrooted
  refine (leads_outlives hset hm).visits_follow hcharted hlt honBranch ?_ fun hoffers hcomment => ?_
  · exact fun hnamed => not_met_of_namedScope hset hm hnamed hx
  · exact hitems x ((leads_rooted_iff hset hm (lt_size_of_offers hoffers)).mp hrooted) hoffers hcomment

theorem Step.onTrack (hstep : Step m m') (hm : Leads (start set) m) (h : m.OnTrack set.tree) :
    m'.OnTrack set.tree := by
  have hm' : Leads (start set) m' := hm.tail hstep
  have hguides := leads_guides hset hcharted hitems hm'
  have hsize : m.progress.tree.size ≤ m'.progress.tree.size := by
    obtain ⟨action, rest, p⟩ := hstep
    exact (action.perform_edits (wellFormed_of_leads hset hm)).size_le
  have hkeep : ∀ action : WalkAction, action.OnTrack set.tree m.progress → action.OnTrack set.tree m'.progress :=
    fun action haction => haction.of_origin hsize fun x hx => hstep.origin?_eq hset hm hx
  have hflag : ∀ x, (m.progress.tree.kind x).isAliasDefinition = (set.tree.kind x).isAliasDefinition :=
    leads_flag hset isAliasDefinition_shape rfl hm
  have hwf := wellFormed_of_leads hset hm
  obtain ⟨horderly, htracked⟩ := leads_tracked hset hm
  obtain ⟨action, rest, p⟩ := hstep
  have haction := h.actions action mem_cons_self
  refine OnTrack.append ?_ fun action haction => hkeep action (h.actions action (mem_cons_of_mem _ haction))
  have halike : ∀ {p' : Progress}, Alike p p' → OnTrack set.tree ⟨[], p'⟩ := fun halike =>
    .nil fun d hd => h.deferred d (halike.deferred_eq ▸ hd)
  cases action with
  | visit n context id =>
    cases n with
    | zero => exact halike (.refl p)
    | succ n =>
      have haliases : ∀ name, context.scope.aliasFor? name = p.tree.lexical? set.modules name id :=
        htracked.aliases_eq _ mem_cons_self
      refine ofVisit_onTrack n hwf (hflag id) (fun e he => ?_) (hkeep _ haction) hguides h.deferred
      rw [haliases] at he
      exact (hflag e).symm.trans (hwf.definition_of_lexical? he)
  | held n context id =>
    have hmet : p.Met id := .inl (horderly.sound _ mem_cons_self).2.2
    exact { halike (.refl p) with actions := onTrack_visitAll n (hguides id hmet _ haction.2) }
  | settle id => exact halike (settleValueKind_noted p id).alike
  | check branch usage definition => exact halike (checkArguments_noted p branch usage definition).alike
  | nested n context =>
    refine ⟨onTrack_visitAll n fun v hv => ?_, fun _ h => absurd h not_mem_nil⟩
    obtain ⟨d, hd, rfl⟩ := mem_map.mp hv
    have hdef := h.deferred d hd
    exact ⟨lt_size_of_definition ((hflag d.definition).trans hdef), Context.onBranchAt_of_definition _ _ hdef⟩
  | leave id outer => exact .nil haction

theorem leads_onTrack (hm : Leads (start set) m) : m.OnTrack set.tree := by
  refine induction_on (P := fun m => m.OnTrack set.tree) ⟨onTrack_visitAll _ fun v hv => ?_, fun d hd => ?_⟩
    (fun _ _ hm h hstep => hstep.onTrack hset hcharted hitems hm h) hm
  · obtain ⟨id, hid, rfl⟩ := mem_map.mp hv
    have hlt := hset.tree_parsed.module_lt_size hid
    refine ⟨hlt.trans_le (leads_unfolds hset .refl).size_le, fun s hs _ branch hon => ?_⟩
    -- a module has nothing above it
    rw [origin?_of_lt _ hlt] at hs
    obtain rfl := some.inj hs
    have hroot := hset.tree_parsed.module_root hid
    cases hon with
    | alternative hparent => cases hroot.symm.trans hparent
    | inside hparent => cases hroot.symm.trans hparent
  · rw [(start_noted set).deferred_eq] at hd
    cases hd

/-- Along the walk, what a pair needs is noted on the branch that the pair lies on. -/
theorem leads_recorded (hm : Leads (start set) m) : m.progress.Recorded set.tree.OnBranch := by
  have hchoice : ∀ x branch, set.tree.OnBranch x branch → (initial set).tree.HasChoice branch := fun x branch hon =>
    hcharted.hasChoice hset.tree_parsed.wellFormed hon
  refine induction_on (P := fun m => m.progress.Recorded set.tree.OnBranch) ?_ (fun m m' hm h hstep => ?_) hm
  · have hedits : Edits (fun _ code _ => ¬ code.IsAboutNeed) (fun _ => True) (initial set) (start set).progress :=
      start_edits fun _ _ _ hnot => hnot
    refine hedits.recorded hchoice (fun _ _ _ hnot hcode => absurd hcode hnot) fun f hf => ?_
    cases hf
  · have hontrack := leads_onTrack hset hcharted hitems hm
    have hsame := (leads_keeps hset Pair.lasting_stays hm).same
    have hwf := wellFormed_of_leads hset hm
    have hannotates := leads_annotates hset hm
    obtain ⟨action, rest, p⟩ := hstep
    refine (action.perform_edits hwf).recorded (fun x branch hon => (hchoice x branch hon).annotates hannotates)
      (fun branch? code x hreport hcode branch hon => ?_) h
    obtain ⟨n, context, rfl, rfl, hneed⟩ := hreport hcode
    have honBranch : context.OnBranchAt set.tree p.tree x := (hontrack.actions _ mem_cons_self).2
    refine honBranch x (origin?_of_lt _ hon.lt_size) ?_ branch hon
    exact (Pair.flag_eq_of_lasting (hsame x hon.lt_size) isComment_shape).symm.trans hneed.1

end

end Config

namespace Session

variable {limit : Option Nat} {sources : List Source} {parsed resolved : Session}

theorem items_eq_none_of_offers (hok : (start limit).parseAll sources = .ok parsed) {x : PairId}
    (hx : parsed.set.tree.Rooted parsed.set.modules x) (hoffers : parsed.set.tree.offers x)
    (hcomment : (parsed.set.tree.kind x).isComment = false) : (parsed.set.tree.get x).items = none := by
  obtain ⟨m, hm, hangs⟩ := hx
  obtain ⟨source, -, hlaid⟩ := (laid_of_start hok).exists_source hm
  rcases (hlaid x hangs).shaped with hbad | ⟨helement, owner, hdelimiter, items, hitems, hmem⟩ | ⟨shape, hshape⟩
  · exact absurd hbad (by simp [hcomment])
  · have hpart := (parsed_of_start hok).verbatim.part owner (by rw [hdelimiter]; decide) x (by rw [hitems]; exact hmem)
    exact (hpart helement).items_eq
  · rw [offers] at hoffers
    cases shape with
    | free => exact hshape.2.2.1
    | text => exact hshape.2.2.1
    | reference => exact hshape.2.2.1
    | bare => exact hshape.2.2
    | parts =>
      rw [hshape.1] at hoffers
      cases hoffers
    | gathered =>
      rw [hshape.1] at hoffers
      cases hoffers

theorem mem_entries_of_finding (hresolve : parsed.resolve = .ok resolved) {f : Finding}
    (hf : f ∈ parsed.set.resolve.2) : f.diagnostic ∈ resolved.collection.entries := by
  rw [(resolve_spec hresolve).2]
  exact mem_append_right _ (mem_map_of_mem hf)

/-- What is found about the needs of a pair is delivered, and is noted with the choice whose branch the pair lies
    on: the innermost one around it, where scopes with a name do not count. -/
theorem needs_recorded_on_branch (hparse : (start limit).parseAll sources = .ok parsed)
    (hresolve : parsed.resolve = .ok resolved) {f : Finding} (hf : f ∈ parsed.set.resolve.2)
    (hcode : f.diagnostic.code.IsAboutNeed) {branch : Branch} (hon : parsed.set.tree.OnBranch f.subject branch) :
    f.diagnostic ∈ resolved.collection.entries ∧ resolved.set.tree.Records branch f.diagnostic := by
  refine ⟨mem_entries_of_finding hresolve hf, ?_⟩
  have hrecorded := Config.leads_recorded (parsed_of_start hparse) (charted_of_start hparse)
    (fun x => items_eq_none_of_offers hparse) (Config.start_leads_run parsed.set)
  rw [← run_tree_eq hresolve]
  exact hrecorded f hf hcode branch hon

/-- A choice whose alternatives are a scope with a name, which is a choice too, and an element with one more choice
    in it. -/
def branchedSource : Source where
  name := "a.pxml"
  format := .xml
  text := ("!#p = urn:p\n!d:\n    r::\n        #p.x::\n            a = $nope\n        s:\n            t::\n" ++
    "                u:\n                    v = \"k $gone l\"\n                w = 1\n            q.y = 2\n").toList

/-- `$gone` is noted with the choice `t`, and with the choice `r` are noted `q.y`, which is beside `t`, and `$nope`,
    which is below the scope. -/
theorem branchedSource_recorded : ∃ parsed resolved, (start none).parseAll [branchedSource] = .ok parsed ∧
    parsed.resolve = .ok resolved ∧ ∀ v ∈ [((6 : PairId), Branch.mk 2 3 4), (11, ⟨2, 8, 9⟩), (15, ⟨2, 3, 7⟩)],
      ∃ f ∈ parsed.set.resolve.2, f.subject = v.1 ∧ f.diagnostic.code.IsAboutNeed ∧
        parsed.set.tree.OnBranch v.1 v.2 ∧ f.diagnostic ∈ resolved.collection.entries ∧
        resolved.set.tree.Records v.2 f.diagnostic := by
  obtain ⟨parsed, resolved, hparse, hresolve, hcheck⟩ := exists_confirmed
    (show confirms none [branchedSource] (fun parsed _ => decide
      (∀ v ∈ [((6 : PairId), Branch.mk 2 3 4), (11, ⟨2, 8, 9⟩), (15, ⟨2, 3, 7⟩)],
        (∃ f ∈ parsed.set.resolve.2, f.subject = v.1 ∧ f.diagnostic.code.IsAboutNeed) ∧
          parsed.set.tree.branchAlong? (v.1 :: parsed.set.tree.ancestors v.1) = some v.2)) = true by decide +kernel)
  refine ⟨parsed, resolved, hparse, hresolve, fun v hv => ?_⟩
  obtain ⟨⟨f, hf, hsubject, hcode⟩, hbranch⟩ := hcheck v hv
  have hon := (parsed_of_start hparse).tree_parsed.wellFormed.onBranch_iff.mpr hbranch
  exact ⟨f, hf, hsubject, hcode, hon, needs_recorded_on_branch hparse hresolve hf hcode (hsubject ▸ hon)⟩

/-- A choice that is a scope with a name. -/
def scopedChoiceSource : Source where
  name := "a.pxml"
  format := .xml
  text := "!#p = urn:p\n!d:\n    #p.x::\n        a = $nope\n        b = 1\n".toList

/-- The usage 5 is not defined and stands in the alternative 4 of the scope 3, but nothing is noted with the scope,
    which the document 2 knows as a choice. -/
theorem scopedChoiceSource_unrecorded : ∃ parsed resolved, (start none).parseAll [scopedChoiceSource] = .ok parsed ∧
    parsed.resolve = .ok resolved ∧ ∃ f ∈ parsed.set.resolve.2, f.subject = 5 ∧
      f.diagnostic.code = .aliasIsNotDefined ∧ f.diagnostic ∈ resolved.collection.entries ∧
      parsed.set.tree.ancestors 5 = [4, 3, 2, 0] ∧
      (∀ x ∈ [5, 4, 3, 2], (parsed.set.tree.kind x).isAliasDefinition = false) ∧
      parsed.set.tree.enclosingDocument? 5 = some 2 ∧ parsed.set.tree.offers 4 = false ∧
      parsed.set.tree.offers 3 = true ∧ resolved.set.tree.HasChoice ⟨2, 3, 4⟩ ∧
      ¬ resolved.set.tree.Records ⟨2, 3, 4⟩ f.diagnostic := by
  obtain ⟨parsed, resolved, hparse, hresolve, hcheck⟩ := exists_of_confirms
    (show confirms none [scopedChoiceSource] (fun parsed resolved =>
      decide (∃ f ∈ parsed.set.resolve.2, f.subject = 5 ∧ f.diagnostic.code = .aliasIsNotDefined) &&
      [5, 4, 3, 2].all (fun x => !(parsed.set.tree.kind x).isAliasDefinition) &&
      decide (parsed.set.tree.ancestors 5 = [4, 3, 2, 0] ∧ parsed.set.tree.enclosingDocument? 5 = some 2) &&
      decide (parsed.set.tree.offers 4 = false ∧ parsed.set.tree.offers 3 = true ∧
        ((resolved.set.tree.kind 2).choices?.bind (·.find? 3)).map (·.errors.length) = some 0)) = true by
      decide +kernel)
  simp only [Bool.and_eq_true, List.all_eq_true, Bool.not_eq_true', decide_eq_true_eq] at hcheck
  obtain ⟨⟨⟨⟨f, hf, hsubject, hcode⟩, hdefs⟩, hup, hdoc⟩, hplain, hoffers, hfind⟩ := hcheck
  obtain ⟨node, hnode, herrors⟩ := Option.map_eq_some_iff.mp hfind
  obtain ⟨choices, hchoices, hnode⟩ := Option.bind_eq_some_iff.mp hnode
  refine ⟨parsed, resolved, hparse, hresolve, f, hf, hsubject, hcode, mem_entries_of_finding hresolve hf, hup, hdefs,
    hdoc, hplain, hoffers, ⟨choices, hchoices, (ChoiceTree.isSome_find?_iff 3 choices).mp (by rw [hnode]; rfl)⟩, ?_⟩
  rintro ⟨choices', found, hchoices', hfound, herror⟩
  obtain rfl := Option.some.inj (hchoices.symm.trans hchoices')
  obtain rfl := Option.some.inj (hnode.symm.trans hfound)
  rw [List.length_eq_zero_iff.mp herrors] at herror
  cases herror

end Session

end PairMarkup
