import PairMarkup.Proofs.Session
import PairMarkup.Proofs.Tree.Rooted

namespace PairMarkup

open List Config

namespace Progress

/-- The recursion of the walk, written out down to a depth. What is deeper is left to
    `beyond`. -/
def unroll (beyond : Walk) : (depth : Nat) → Walk
  | 0 => beyond
  | n + 1 => step (unroll beyond n)

/-- The walk over all modules, given a way to go on with a pair. -/
def runBy (walk : Walk) (set : ModuleSet) : Progress :=
  let root := set.globalScope
  let p := set.modules.foldl (announce none) (initial set)
  set.modules.foldl (fun p id => walk ⟨root, root, [], none⟩ id p) p

theorem unroll_add (beyond : Walk) (n k : Nat) : unroll beyond (n + k) = unroll (unroll beyond k) n := by
  induction n with
  | zero => rw [Nat.zero_add, unroll]
  | succ n ih => rw [Nat.succ_add, unroll, ih, unroll]

end Progress

namespace Config

open Progress WalkAction

/-- From here on no visit is cut off for its depth. -/
def Unhindered (m : Config) : Prop := ∀ m', Leads m m' → ∀ context id rest, m'.agenda ≠ .visit 0 context id :: rest

theorem Unhindered.of_leads {m m' : Config} (h : m.Unhindered) (hm : Leads m m') : m'.Unhindered :=
  fun _ hm' => h _ (hm.trans hm')

variable {rest : List WalkAction} {p : Progress}

theorem Unhindered.perform {action : WalkAction} (h : Unhindered ⟨action :: rest, p⟩) :
    Unhindered ⟨(action.perform p).1 ++ rest, (action.perform p).2⟩ :=
  h.of_leads (leads_of_perform .refl)

section

variable {n : Nat} {walk : Walk} {context : Context} {id : PairId} {rest : List WalkAction} {p : Progress}
  (ih : ∀ {context id rest p}, Unhindered ⟨.visit n context id :: rest, p⟩ →
    walk context id p = walkTo n context id p)

include ih

theorem foldl_walk_eq (visits : List (Context × PairId)) (h : Unhindered ⟨visitAll n visits ++ rest, p⟩) :
    visits.foldl (fun p v => walk v.1 v.2 p) p = visits.foldl (fun p v => walkTo n v.1 v.2 p) p := by
  induction visits generalizing p with
  | nil => rfl
  | cons v visits hvisits =>
    rw [foldl_cons, foldl_cons, ih h]
    exact hvisits (h.of_leads (visit_leads n v.1 v.2 _ p))

theorem nested_eq (h : Unhindered ⟨.nested n context :: rest, p⟩) :
    (p.deferred.getD []).foldl (fun p d => walk (context.resume d) d.definition p) { p with deferred := none } =
      (p.deferred.getD []).foldl (fun p d => walkTo n (context.resume d) d.definition p)
        { p with deferred := none } := by
  have h' := foldl_walk_eq ih ((p.deferred.getD []).map fun d => (context.resume d, d.definition)) h.perform
  rwa [foldl_map, foldl_map] at h'

theorem enterDefinition_eq (h : Unhindered ⟨(ofEntering n context id p).1 ++ rest, (ofEntering n context id p).2⟩) :
    enterDefinition walk context id p = enterDefinition (walkTo n) context id p := by
  unfold ofEntering at h
  unfold enterDefinition
  by_cases hentered : p.entered.contains id = true
  · rw [if_pos hentered, if_pos hentered]
  · rw [if_neg hentered, append_assoc] at h
    rw [if_neg hentered, if_neg hentered]
    have hbody := foldl_walk_eq ih _ h
    have hrest := h.of_leads (visitAll_leads (visit_leads n) _ _ _)
    have hnested := nested_eq ih hrest
    simp only [walkHeld, hbody, hnested]

theorem bindUsage_eq (h : Unhindered ⟨(ofTie n context id p).1 ++ rest, (ofTie n context id p).2⟩) :
    bindUsage walk context id p = bindUsage (walkTo n) context id p := by
  unfold ofTie at h
  unfold bindUsage
  cases hfound : context.scope.aliasFor? (p.tree.get id).nameText with
  | none => rfl
  | some definition =>
    simp only [hfound, append_assoc] at h
    dsimp only
    by_cases hchain : context.chain.contains definition = true
    · rw [if_pos hchain, if_pos hchain]
    · rw [if_neg hchain] at h
      rw [if_neg hchain, if_neg hchain]
      by_cases hentered : (p.tie id definition).entered.contains definition = true
      · rw [if_pos hentered, if_pos hentered]
      · rw [if_neg hentered] at h
        rw [if_neg hentered, if_neg hentered, enterDefinition_eq ih h]

theorem walkHeld_eq (h : Unhindered ⟨.held n context id :: rest, p⟩) :
    walkHeld walk { context with scope := p.tree.openScope id context.scope } id p =
      walkHeld (walkTo n) { context with scope := p.tree.openScope id context.scope } id p :=
  foldl_walk_eq ih _ h.perform

theorem handle_eq (h : Unhindered ⟨(ofHandling n context id p).1 ++ rest, (ofHandling n context id p).2⟩) :
    handle walk context id p = handle (walkTo n) context id p := by
  unfold ofHandling at h
  unfold handle
  simp only [append_assoc] at h
  by_cases husage : ((p.beginPair context.branch id).tree.kind id).isAliasUsage = true
  · rw [if_pos husage] at h
    have hheld := walkHeld_eq ih (h.of_leads (ofTie_leads (visit_leads n) _ _ _ _))
    simp only [if_pos husage, bindUsage_eq ih h, hheld]
  · rw [if_neg husage] at h
    change Unhindered ⟨.held n _ id :: .settle id :: rest, _⟩ at h
    have hheld := walkHeld_eq ih h
    simp only [if_neg husage, hheld]

theorem step_eq (h : Unhindered ⟨(ofVisit n context id p).1 ++ rest, (ofVisit n context id p).2⟩) :
    step walk context id p = step (walkTo n) context id p := by
  unfold ofVisit at h
  unfold step
  by_cases hkind : (p.tree.kind id).isAliasDefinition = true
  · rw [if_pos hkind] at h
    rw [if_pos hkind, if_pos hkind]
    cases hdeferred : p.deferred with
    | some deferred => rfl
    | none =>
      rw [hdeferred] at h
      exact enterDefinition_eq ih h
  · rw [if_neg hkind] at h
    rw [if_neg hkind, if_neg hkind]
    exact handle_eq ih h

end

/-- Where no visit is cut off, it does not matter what would be done in its place. -/
theorem unroll_eq_walkTo (beyond : Walk) {n : Nat} {context : Context} {id : PairId}
    (h : Unhindered ⟨.visit n context id :: rest, p⟩) :
    unroll beyond n context id p = walkTo n context id p := by
  induction n generalizing context id rest p with
  | zero => exact absurd rfl (h _ .refl context id rest)
  | succ n ih => exact step_eq ih h.perform

theorem start_unhindered {set : ModuleSet} (hset : set.Parsed) : (start set).Unhindered := by
  intro m hm context id rest hagenda
  obtain ⟨horderly, htracked⟩ := leads_tracked hset hm
  have hdepth := (horderly.sound (.visit 0 context id) (hagenda ▸ mem_cons_self)).2
  have hdone := htracked.covered.length_le
  change m.progress.handled.length + m.progress.entered.length ≤ _ at hdone
  simp only [done] at hdepth
  omega

end Config

namespace ModuleSet.Parsed

open Progress

variable {set : ModuleSet}

theorem runBy_unroll (hset : set.Parsed) (beyond : Walk) {depth : Nat} (hdepth : 2 * set.tree.size + 2 ≤ depth) :
    runBy (unroll beyond depth) set = run set := by
  obtain ⟨k, rfl⟩ := Nat.exists_eq_add_of_le hdepth
  have hstart := start_unhindered hset
  rw [start, ← append_nil (WalkAction.visitAll _ _)] at hstart
  have h := foldl_walk_eq (unroll_eq_walkTo (unroll beyond k)) _ hstart
  rw [foldl_map, foldl_map] at h
  rw [unroll_add]
  exact h

end ModuleSet.Parsed

namespace Worklist

open Progress PairTree

variable {modules : List PairId} {size₀ : Nat} {root : Scope} {v : Visit} {l l' : List Visit}
  {opens opens' : List PairId} {p p₁ p' : Progress}

/-- All that was met, or is yet to be visited, hangs from a module. -/
structure Rooted (modules : List PairId) (o : Worklist) : Prop where
  pending : ∀ v ∈ o.pending, o.progress.tree.Rooted modules v.id
  handled : ∀ x ∈ o.progress.handled, o.progress.tree.Rooted modules x
  entered : ∀ x ∈ o.progress.entered, o.progress.tree.Rooted modules x

namespace Rooted

theorem of_alike (h : Rooted modules ⟨l, opens, p⟩) (halike : Alike p p')
    (hl : ∀ w ∈ l', ∃ v ∈ l, w.id = v.id) : Rooted modules ⟨l', opens', p'⟩ where
  pending w hw := by
    obtain ⟨v, hv, heq⟩ := hl w hw
    exact heq ▸ (rooted_iff_of_shape halike.shape_eq).mpr (h.pending v hv)
  handled x hx := (rooted_iff_of_shape halike.shape_eq).mpr (h.handled x (halike.handled_eq ▸ hx))
  entered x hx := (rooted_iff_of_shape halike.shape_eq).mpr (h.entered x (halike.entered_eq ▸ hx))

theorem below (h : Rooted modules ⟨l, opens, p⟩) (hv : p.tree.Rooted modules v.id) :
    Rooted modules ⟨v.below p.tree ++ l, opens, p⟩ where
  pending w hw := by
    rcases mem_append.mp hw with hw | hw
    · obtain ⟨c, hc, rfl⟩ := mem_map.mp hw
      exact hv.held hc
    · exact h.pending w hw
  handled := h.handled
  entered := h.entered

theorem enter {e : PairId} (h : Rooted modules ⟨l, opens, p⟩) (he : p.tree.Rooted modules e)
    (hnoted : Noted { p with entered := e :: p.entered } p') : Rooted modules ⟨l, opens', p'⟩ := by
  have hentered : Rooted modules ⟨l, opens, { p with entered := e :: p.entered }⟩ := by
    refine ⟨h.pending, h.handled, fun x hx => ?_⟩
    rcases mem_cons.mp hx with rfl | hx
    · exact he
    · exact h.entered x hx
  exact hentered.of_alike hnoted.alike fun w hw => ⟨w, hw, rfl⟩

theorem handle (h : Rooted modules ⟨v :: l, opens, p⟩) (howned : p.tree.Owned modules)
    (halike : Alike ({ p with handled := v.id :: p.handled }.splitScope v.id) p') :
    Rooted modules ⟨v.below p'.tree ++ l, opens', p'⟩ := by
  have hkeep : ∀ {x}, p.tree.Rooted modules x → (p.tree.splitScope v.id).Rooted modules x :=
    fun hx => (howned.rooted_splitScope_iff v.id (howned.rooted_lt_size hx)).mpr hx
  have hv := hkeep (h.pending v mem_cons_self)
  have hsplit : Rooted modules ⟨l, opens, { p with handled := v.id :: p.handled }.splitScope v.id⟩ := by
    refine ⟨fun w hw => hkeep (h.pending w (mem_cons_of_mem _ hw)), fun x hx => ?_,
      fun x hx => hkeep (h.entered x hx)⟩
    rcases mem_cons.mp hx with rfl | hx
    · exact hv
    · exact hkeep (h.handled x hx)
  exact (hsplit.of_alike halike fun w hw => ⟨w, hw, rfl⟩).below ((rooted_iff_of_shape halike.shape_eq).mpr hv)

theorem handle_usage (h : Rooted modules ⟨v :: l, opens, p⟩) (howned : p.tree.Owned modules)
    (husage : (p.tree.kind v.id).isAliasUsage)
    (hnoted : Noted { p with handled := v.id :: p.handled } p₁) (halike : Alike p₁ p') :
    Rooted modules ⟨v.below p₁.tree ++ l, opens', p'⟩ := by
  rw [← below_eq_of_shape halike.shape_eq]
  refine h.handle howned ?_
  rw [splitScope_of_usage husage]
  exact hnoted.alike.trans halike

end Rooted

theorem Step.rooted {passes : PairId → PairId → Prop} {o o' : Worklist} (hstep : Step root passes o o')
    (htracked : Tracked modules size₀ root o) (h : Rooted modules o) : Rooted modules o' := by
  have howned := htracked.covered.toOwned
  cases hstep with
  | note hperm hnoted => exact h.of_alike hnoted.alike fun w hw => ⟨w, hperm.mem_iff.mp hw, rfl⟩
  | close hnoted => exact h.of_alike hnoted.alike fun w hw => ⟨w, hw, rfl⟩
  | skip => exact h.of_alike (.refl _) fun w hw => ⟨w, mem_cons_of_mem _ hw, rfl⟩
  | @postpone v l l' p _ hperm =>
    refine h.of_alike (.refl _) fun w hw => ?_
    rcases mem_cons.mp (hperm.mem_iff.mp hw) with rfl | hw
    · exact ⟨v, mem_cons_self, rfl⟩
    · exact ⟨w, mem_cons_of_mem _ hw, rfl⟩
  | @enter v l p p' _ _ hnoted =>
    have hv := h.pending v mem_cons_self
    have hrest : Rooted modules ⟨l, v.opens, p⟩ := h.of_alike (.refl _) fun w hw => ⟨w, mem_cons_of_mem _ hw, rfl⟩
    exact (hrest.enter hv hnoted).below ((rooted_iff_of_shape hnoted.shape_eq).mpr hv)
  | handle _ _ hnoted => exact h.handle howned hnoted.alike
  | unbound husage _ hnoted => exact h.handle_usage howned husage hnoted (reportName_alike ..)
  | circular husage _ _ hnoted =>
    exact h.handle_usage howned husage hnoted
      ((handled_tie_alike husage hnoted _).trans (foldl_markCircular_marks ..).toAlike)
  | settled husage _ _ _ hnoted => exact h.handle_usage howned husage hnoted (handled_tie_alike husage hnoted _)
  | @follow v l p p₁ p₂ p' e husage hfound _ _ hnoted haround hopen =>
    have halike := (handled_tie_alike husage hnoted e).trans haround.alike
    have hhandle : Rooted modules ⟨v.below p₁.tree ++ l, v.opens, p₂⟩ := h.handle_usage howned husage hnoted halike
    -- A usage leads to what its name stands for, and names stand for rooted definitions only.
    have he : p.tree.Rooted modules e := by
      rw [htracked.aliases_eq v mem_cons_self] at hfound
      exact howned.rooted_of_lexical? (h.pending v mem_cons_self) hfound
    have he₂ := (rooted_iff_of_shape (halike.shape_eq.trans hnoted.shape_eq)).mpr he
    exact (hhandle.enter he₂ hopen).below ((rooted_iff_of_shape hopen.shape_eq).mpr he₂)

end Worklist

namespace ModuleSet.Parsed

open Progress Config

variable {set : ModuleSet} {x : PairId}

theorem start_rooted (set : ModuleSet) : (start set).worklist.Rooted set.modules := by
  have hnoted := start_noted set
  refine ⟨fun v hv => ?_, fun x hx => ?_, fun x hx => ?_⟩
  · rw [pending_start] at hv
    obtain ⟨m, hm, rfl⟩ := mem_map.mp hv
    exact ⟨m, hm, .refl⟩
  · rw [show (start set).worklist.progress.handled = [] from hnoted.handled_eq] at hx
    cases hx
  · rw [show (start set).worklist.progress.entered = [] from hnoted.entered_eq] at hx
    cases hx

variable (hset : set.Parsed)

include hset

theorem leads_rooted {m : Config} (hm : Leads (start set) m) : m.worklist.Rooted set.modules :=
  worklist_induction hset (start_rooted set) (fun _ _ htracked h hstep => hstep.rooted htracked h) hm

theorem run_rooted : Worklist.Rooted set.modules ⟨[], [], (run set).forget⟩ := hset.leads_rooted (start_leads_run set)

theorem mem_handled_run_iff : x ∈ (run set).handled ↔ (run set).tree.Rooted set.modules x ∧
      ((run set).tree.kind x).isAliasDefinition = false := by
  refine ⟨fun hx => ⟨hset.run_rooted.handled x hx, hset.run_tracked.covered.handled_plain x hx⟩, ?_⟩
  rintro ⟨⟨m, hm, hx⟩, hplain⟩
  exact hset.run_handled hm hx hplain

theorem mem_entered_run_iff : x ∈ (run set).entered ↔ (run set).tree.Rooted set.modules x ∧
      ((run set).tree.kind x).isAliasDefinition := by
  have hcovered := hset.run_tracked.covered
  refine ⟨fun hx => ⟨hset.run_rooted.entered x hx, hcovered.entered_definition x hx⟩, ?_⟩
  rintro ⟨⟨m, hm, hx⟩, hdef⟩
  refine (hcovered.met_of_hangsFrom hm hx).resolve_left fun hhandled => ?_
  exact Bool.false_ne_true ((hcovered.handled_plain x hhandled).symm.trans hdef)

end ModuleSet.Parsed

namespace Session

/-- Resolution ends: whatever would be done beyond the bound of its depth, it comes to the same, with
    nothing left for later. It has then handled each pair below a module once, definitions
    aside, walked each definition there once, and met nothing else. -/
theorem resolution_ends_with_all_met_once {limit : Option Nat} {sources : List Source} {parsed resolved : Session}
    (hparse : (start limit).parseAll sources = .ok parsed) (hresolve : parsed.resolve = .ok resolved) :
    let p := Progress.run parsed.set
    let t := resolved.set.tree
    (resolved.set = p.set ∧ p.deferred = none ∧ ∀ beyond depth, 2 * parsed.set.tree.size + 2 ≤ depth →
        Progress.runBy (Progress.unroll beyond depth) parsed.set = p) ∧
    (p.handled.Nodup ∧ ∀ x, x ∈ p.handled ↔ t.Rooted resolved.set.modules x ∧ (t.kind x).isAliasDefinition = false) ∧
    p.entered.Nodup ∧ ∀ d, d ∈ p.entered ↔ t.Rooted resolved.set.modules d ∧ (t.kind d).isAliasDefinition = true := by
  have hparsed := parsed_of_start hparse
  have hcovered := hparsed.run_tracked.covered
  rw [← modules_eq hparse hresolve, ← run_tree_eq hresolve]
  refine ⟨⟨(resolve_spec hresolve).1, ?_, fun beyond depth => hparsed.runBy_unroll beyond⟩,
    ⟨(List.nodup_append.mp hcovered.fresh).2.1, fun x => hparsed.mem_handled_run_iff⟩,
    hcovered.entered_nodup, fun d => hparsed.mem_entered_run_iff⟩
  exact (Config.leads_tracked hparsed (Config.start_leads_run parsed.set)).1.disciplined

/-- Usages that come before their definitions, two of which are nested in another one, a scope
    that is split, and a circle. -/
def leapingSource : Source where
  name := "a.pxml"
  format := .xml
  text := ("!#ns = urn:ns\n!d:\n    $a\n!$a:\n    !$n:\n        #ns.w:\n            $b\n" ++
    "    !$o:\n        x = 1\n    $n\n!$b:\n    y = \"v $a w\"\n!$c:\n    z = 1\n").toList

/-- The definitions `a`, `n` and `b` are met at usages, `o` when it was left for later, and `c` in
    its place. The pair 18 is the element that the scope is split into. -/
theorem leapingSource_all_met_once : ∃ parsed resolved,
    (start none).parseAll [leapingSource] = .ok parsed ∧ parsed.resolve = .ok resolved ∧
      let p := Progress.run parsed.set
      let t := resolved.set.tree
      (p.entered.reverse = [4, 5, 11, 8, 16] ∧
        p.handled.reverse = [0, 1, 2, 3, 10, 6, 18, 7, 12, 14, 13, 15, 9, 17]) ∧
      (∀ beyond depth, 2 * parsed.set.tree.size + 2 ≤ depth →
        Progress.runBy (Progress.unroll beyond depth) parsed.set = p) ∧
      (∀ x, x ∈ p.handled ↔ t.Rooted resolved.set.modules x ∧ (t.kind x).isAliasDefinition = false) ∧
      ∀ d, d ∈ p.entered ↔ t.Rooted resolved.set.modules d ∧ (t.kind d).isAliasDefinition = true := by
  obtain ⟨parsed, resolved, hparse, hresolve, hcheck⟩ := exists_confirmed
    (show confirms none [leapingSource] (fun parsed _ =>
      (Progress.run parsed.set).entered.reverse = [4, 5, 11, 8, 16] ∧
        (Progress.run parsed.set).handled.reverse = [0, 1, 2, 3, 10, 6, 18, 7, 12, 14, 13, 15, 9, 17]) =
          true by decide +kernel)
  obtain ⟨⟨-, -, hends⟩, ⟨-, hhandled⟩, -, hentered⟩ := resolution_ends_with_all_met_once hparse hresolve
  exact ⟨parsed, resolved, hparse, hresolve, hcheck, hends, hhandled, hentered⟩

end Session

end PairMarkup
