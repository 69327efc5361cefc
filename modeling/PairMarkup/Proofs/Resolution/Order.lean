import Mathlib.Data.Set.Basic
import PairMarkup.Proofs.Resolution.Acyclicity
import PairMarkup.Proofs.Resolution.Overlooked
import PairMarkup.Proofs.Tree.Reordering

namespace PairMarkup

open Progress Relation Config

namespace PairTree

/-- No definition refers to two others that both lead back to it. -/
def Unforked (t : PairTree) : Prop := ∀ d e e', t.Refers d e → t.Refers d e' → Relation.ReflTransGen t.Refers e d →
    Relation.ReflTransGen t.Refers e' d → e = e'

end PairTree

namespace ModuleSet.Reordering

variable {s s' : ModuleSet} {φ : PairId → PairId} {d e : PairId}

section

variable (h : s.Reordering s' φ) (hs : s.Parsed) (hs' : s'.Parsed)

include h hs hs'

theorem cites (hde : s.Cites d e) : s'.Cites (φ d) (φ e) := by
  obtain ⟨u, hu, husage, hd, he⟩ := hde
  refine ⟨φ u, h.rooted hu, (h.isAliasUsage_eq hu).trans husage, ?_, ?_⟩
  · rw [h.enclosingDefinition?_eq hs' hs hu, hd]
    rfl
  · rw [h.nameText_eq hu, h.lexical?_eq hs' hs _ hu, he]
    rfl

variable (hd : s.tree.Rooted s.modules d)

include hd

theorem exists_cites {y : PairId} (hy : s'.Cites (φ d) y) : ∃ e, s.Cites d e ∧ φ e = y := by
  obtain ⟨u', hu', husage, hd', he'⟩ := hy
  obtain ⟨u, hu, rfl⟩ := h.exists_rooted hu'
  rw [h.enclosingDefinition?_eq hs' hs hu] at hd'
  rw [h.nameText_eq hu, h.lexical?_eq hs' hs _ hu] at he'
  obtain ⟨d₀, hd₀, heq⟩ := Option.map_eq_some_iff.mp hd'
  obtain ⟨e, he, rfl⟩ := Option.map_eq_some_iff.mp he'
  have hrooted := hs.tree_parsed.toOwned.rooted_ancestor hu (List.mem_of_find?_eq_some hd₀)
  obtain rfl := h.injective hs' hrooted hd heq
  exact ⟨e, ⟨u, hu, (h.isAliasUsage_eq hu).symm.trans husage, hd₀, he⟩, rfl⟩

/-- Paths are moved like all else, and there are no others. -/
theorem reaches_iff (he : s.tree.Rooted s.modules e) :
    ReflTransGen s'.Cites (φ d) (φ e) ↔ ReflTransGen s.Cites d e := by
  refine ⟨fun hpath => ?_, fun hpath => hpath.lift φ fun _ _ => h.cites hs hs'⟩
  have hback : ∀ y, ReflTransGen s'.Cites (φ d) y →
      ∃ x, s.tree.Rooted s.modules x ∧ φ x = y ∧ ReflTransGen s.Cites d x := by
    intro y hy
    induction hy with
    | refl => exact ⟨d, hd, rfl, .refl⟩
    | tail _ hyz ih =>
      obtain ⟨x, hx, rfl, hpath⟩ := ih
      obtain ⟨z, hz, rfl⟩ := h.exists_cites hs hs' hx hyz
      exact ⟨z, (hs.rooted_of_cites hz).2, rfl, .tail hpath hz⟩
  obtain ⟨x, hx, heq, hdx⟩ := hback _ hpath
  exact h.injective hs' hx he heq ▸ hdx

theorem cycle_iff : TransGen s'.Cites (φ d) (φ d) ↔ TransGen s.Cites d d := by
  simp only [TransGen.head'_iff]
  constructor
  · rintro ⟨y, hy, hback⟩
    obtain ⟨e, hde, rfl⟩ := h.exists_cites hs hs' hd hy
    exact ⟨e, hde, (h.reaches_iff hs hs' (hs.rooted_of_cites hde).2 hd).mp hback⟩
  · rintro ⟨e, hde, hback⟩
    exact ⟨φ e, h.cites hs hs' hde, (h.reaches_iff hs hs' (hs.rooted_of_cites hde).2 hd).mpr hback⟩

end

end ModuleSet.Reordering

namespace ModuleSet.Parsed

open Progress

variable {set : ModuleSet} {d : PairId}

/-- Where cycles do not branch and no definition is nested, all of a cycle is marked. -/
theorem marked_of_cycle (hset : set.Parsed) (hnested : ∀ x, set.tree.Rooted set.modules x → ¬ (run set).tree.Nested x)
    (hunforked : (run set).tree.Unforked)
    (hd : TransGen (run set).tree.Refers d d) : (run set).tree.Marked d := by
  generalize ht : (run set).tree = t at *
  -- Somewhere on the cycle there is a mark, as otherwise a nested definition would lead there.
  obtain ⟨z, hz, hdz, hzd⟩ : ∃ z, t.Marked z ∧ ReflTransGen t.Refers d z ∧ ReflTransGen t.Refers z d := by
    by_contra hnone
    have hunmarked : ∀ z, ReflTransGen t.Refers d z → ReflTransGen t.Refers z d →
        ¬ t.Marked z := fun z hdz hzd hz => hnone ⟨z, hz, hdz, hzd⟩
    have hcycle : TransGen t.RefersUnmarked d d := by
      refine TransGen.mono ?_ _ _ (transGen_between hd .refl)
      rintro x y ⟨hxy, hdx, hyd⟩
      exact ⟨hxy, hunmarked x hdx (.head hxy hyd), hunmarked y (.tail hdx hxy) hyd⟩
    obtain ⟨x, y, -, ⟨hxy, -⟩, n, hn, hnx⟩ := hset.exists_passedOver_of_cycle ht hcycle
    have hrefers : ∃ e, t.Refers n e := by
      rcases hnx.cases_head with rfl | ⟨e, he, -⟩
      · exact ⟨y, hxy.1⟩
      · exact ⟨e, he⟩
    obtain ⟨e, he⟩ := hrefers
    exact hnested n (hset.rooted_of_cites (hset.run_refers_iff.mp (ht ▸ he))).1 hn
  -- From there the marks go round with the references.
  have hcircles : (run set).MarksCircles := (hset.faithful (start_leads_run set)).circles
  simp only [MarksCircles, ht] at hcircles
  induction hzd using ReflTransGen.head_induction_on with
  | refl => exact hz
  | @head z w hzw hwd ih =>
    obtain ⟨e, he, hze, hez⟩ := hcircles z hz
    obtain rfl := hunforked z e w hze hzw hez (hwd.trans hdz)
    exact ih he (.tail hdz hzw)

end ModuleSet.Parsed

namespace ModuleSet.Reordering

variable {s s' : ModuleSet} {φ : PairId → PairId} {d : PairId}

theorem not_nested (h : s.Reordering s' φ) (hs : s.Parsed) (hs' : s'.Parsed)
    (hnested : ∀ x, ¬ (run s).tree.Nested x) :
    ∀ y, s'.tree.Rooted s'.modules y → ¬ (run s').tree.Nested y := by
  intro y hy hn
  obtain ⟨x, hx, rfl⟩ := h.exists_rooted hy
  have hplaces := leads_keepsPlaces hs (start_leads_run s)
  have hplaces' := leads_keepsPlaces hs' (start_leads_run s')
  obtain ⟨hdef, hsome⟩ := hplaces'.nested_iff.mp hn
  refine hnested x (hplaces.nested_iff.mpr ⟨?_, fun hnone => hsome ?_⟩)
  · exact (h.isAliasDefinition_eq hx).symm.trans hdef
  · change s'.tree.enclosingDefinition? (φ x) = none
    rw [h.enclosingDefinition?_eq hs' hs hx, show s.tree.enclosingDefinition? x = none from hnone]
    rfl

theorem unforked (h : s.Reordering s' φ) (hs : s.Parsed) (hs' : s'.Parsed)
    (hunforked : (run s).tree.Unforked) : (run s').tree.Unforked := by
  unfold PairTree.Unforked at hunforked ⊢
  rw [hs.run_refers_eq] at hunforked
  rw [hs'.run_refers_eq]
  intro d' e' f' he hf heback hfback
  obtain ⟨d, hd, rfl⟩ := h.exists_rooted (hs'.rooted_of_cites he).1
  obtain ⟨e, hde, rfl⟩ := h.exists_cites hs hs' hd he
  obtain ⟨f, hdf, rfl⟩ := h.exists_cites hs hs' hd hf
  rw [h.reaches_iff hs hs' (hs.rooted_of_cites hde).2 hd] at heback
  rw [h.reaches_iff hs hs' (hs.rooted_of_cites hdf).2 hd] at hfback
  exact congrArg φ (hunforked d e f hde hdf heback hfback)

end ModuleSet.Reordering

theorem ModuleSet.Reordering.cycles_eq {s s' : ModuleSet} {φ : PairId → PairId} (h : s.Reordering s' φ)
    (hs : s.Parsed) (hs' : s'.Parsed) : {d' | TransGen (run s').tree.Refers d' d'} =
      Set.image φ {d | TransGen (run s).tree.Refers d d} := by
  rw [hs.run_refers_eq, hs'.run_refers_eq]
  ext d'
  constructor
  · intro hd'
    obtain ⟨e', he', -⟩ := TransGen.head'_iff.mp hd'
    obtain ⟨d, hd, rfl⟩ := h.exists_rooted (hs'.rooted_of_cites he').1
    exact ⟨d, (h.cycle_iff hs hs' hd).mp hd', rfl⟩
  · rintro ⟨d, hd, rfl⟩
    obtain ⟨e, he, -⟩ := TransGen.head'_iff.mp hd
    exact (h.cycle_iff hs hs' (hs.rooted_of_cites he).1).mpr hd

namespace Session

/-- The order of a unit does not matter for which definitions are on cycles of references, and these
    are the ones that are marked or overlooked. So the same definitions are marked in two orders if
    nothing else is overlooked in either, and if cycles do not branch and no definition is nested.
    Those that are marked are reported. -/
theorem circularity_under_reordering {limit limit' : Option Nat} {sources sources' : List Source}
    {parsed resolved parsed' resolved' : Session} (hparse : (start limit).parseAll sources = .ok parsed)
    (hresolve : parsed.resolve = .ok resolved) (hparse' : (start limit').parseAll sources' = .ok parsed')
    (hresolve' : parsed'.resolve = .ok resolved') {φ : PairId → PairId}
    (hφ : parsed.set.Reordering parsed'.set φ) :
    let t := resolved.set.tree
    let t' := resolved'.set.tree
    let told (findings : List Finding) d := findings.countP fun f =>
      f.subject = d ∧ f.diagnostic.code = .aliasDefHasCircularReference
    {d' | Relation.TransGen t'.Refers d' d'} = Set.image φ {d | Relation.TransGen t.Refers d d} ∧
    (∀ d, Relation.TransGen t.Refers d d ↔ t.Marked d ∨ parsed.set.Overlooked d) ∧
    (∀ d', Relation.TransGen t'.Refers d' d' ↔ t'.Marked d' ∨ parsed'.set.Overlooked d') ∧
    ((∀ d, parsed.set.Overlooked d → t.Marked d) → (∀ d', parsed'.set.Overlooked d' → t'.Marked d') →
      {d' | t'.Marked d'} = Set.image φ {d | t.Marked d}) ∧
    ((∀ d, ¬ t.Nested d) → t.Unforked → {d' | t'.Marked d'} = Set.image φ {d | t.Marked d}) ∧
    (∀ d, told parsed.set.resolve.2 d = if t.Marked d then 1 else 0) ∧
    ∀ d', told parsed'.set.resolve.2 d' = if t'.Marked d' then 1 else 0 := by
  have hs := parsed_of_start hparse
  have hs' := parsed_of_start hparse'
  rw [← run_tree_eq hresolve, ← run_tree_eq hresolve']
  have hcycles := hφ.cycles_eq hs hs'
  refine ⟨hcycles, fun d => hs.refers_cycle_iff, fun d' => hs'.refers_cycle_iff, fun hd hd' => ?_,
    fun hnested hunforked => ?_, hs.run_told, hs'.run_told⟩
  · have hmarked : ∀ d, Relation.TransGen (Progress.run parsed.set).tree.Refers d d ↔
        (Progress.run parsed.set).tree.Marked d :=
      fun d => hs.refers_cycle_iff.trans (or_iff_left_of_imp (hd d))
    have hmarked' : ∀ d, Relation.TransGen (Progress.run parsed'.set).tree.Refers d d ↔
        (Progress.run parsed'.set).tree.Marked d :=
      fun d => hs'.refers_cycle_iff.trans (or_iff_left_of_imp (hd' d))
    simpa only [hmarked, hmarked'] using hcycles
  · have hmarked : ∀ d, Relation.TransGen (Progress.run parsed.set).tree.Refers d d ↔
        (Progress.run parsed.set).tree.Marked d :=
      fun d => ⟨hs.marked_of_cycle (fun x _ => hnested x) hunforked, fun h => hs.refers_cycle_iff.mpr (.inl h)⟩
    have hmarked' : ∀ d, Relation.TransGen (Progress.run parsed'.set).tree.Refers d d ↔
        (Progress.run parsed'.set).tree.Marked d :=
      fun d => ⟨hs'.marked_of_cycle (hφ.not_nested hs hs' hnested) (hφ.unforked hs hs' hunforked),
        fun h => hs'.refers_cycle_iff.mpr (.inl h)⟩
    simpa only [hmarked, hmarked'] using hcycles

/-- A definition `a` with usages of `b` and `c`, where `b` leads back to `a` and `c` to `b`. -/
def forkedSource : Source := ⟨"a.pjson", .json, "!$a:\n    $b\n    $c\n!$b:\n    $a\n!$c:\n    $b\n".toList⟩

/-- The same with the two usages in `a` the other way round. -/
def turnedSource : Source := ⟨"a.pjson", .json, "!$a:\n    $c\n    $b\n!$b:\n    $a\n!$c:\n    $b\n".toList⟩

/-- Where the pairs of the one source are in the other. -/
def turn (x : PairId) : PairId := if x = 2 then 3 else if x = 3 then 2 else x

theorem eq_six_of_turn {x : PairId} (h : turn x = 6) : x = 6 := by
  unfold turn at h
  split at h
  · cases h
  · split at h
    · cases h
    · exact h

/-- The turned source is a reordering of the forked one. The definition `c` is marked in it, and is
    not in the other. -/
theorem exists_turned : ∃ parsed resolved parsed' resolved',
    (start none).parseAll [forkedSource] = .ok parsed ∧ parsed.resolve = .ok resolved ∧
    (start none).parseAll [turnedSource] = .ok parsed' ∧ parsed'.resolve = .ok resolved' ∧
    parsed.set.Reordering parsed'.set turn ∧
    (resolved.set.tree.Marked 1 ∧ resolved.set.tree.Marked 4 ∧ ¬ resolved.set.tree.Marked 6) ∧
    resolved'.set.tree.Marked 1 ∧ resolved'.set.tree.Marked 4 ∧ resolved'.set.tree.Marked 6 := by
  obtain ⟨parsed, resolved, hparse, hresolve, hcheck⟩ := exists_of_confirms
    (show confirms none [forkedSource] (fun parsed resolved =>
      (resolved.set.tree.Marked 1 ∧ resolved.set.tree.Marked 4 ∧ ¬ resolved.set.tree.Marked 6) ∧
      confirms none [turnedSource] (fun parsed' resolved' =>
        (resolved'.set.tree.Marked 1 ∧ resolved'.set.tree.Marked 4 ∧ resolved'.set.tree.Marked 6) ∧
        parsed'.set.modules = parsed.set.modules.map turn ∧
        ∀ x ∈ List.range parsed.set.tree.size,
          (parsed'.set.tree.children (turn x)).Perm ((parsed.set.tree.children x).map turn) ∧
          (parsed'.set.tree.get (turn x)).items = (parsed.set.tree.get x).items.map (List.map turn) ∧
          (parsed'.set.tree.kind (turn x)).name = (parsed.set.tree.kind x).name ∧
          (parsed'.set.tree.get (turn x)).name = (parsed.set.tree.get x).name ∧
          ((parsed.set.tree.hoisted x).map fun d => (parsed.set.tree.get d).nameText).Nodup) = true) =
        true by decide +kernel)
  obtain ⟨hmarked, hcheck⟩ := of_decide_eq_true hcheck
  obtain ⟨parsed', resolved', hparse', hresolve', hcheck⟩ := exists_of_confirms hcheck
  obtain ⟨hmarked', hmodules, hall⟩ := of_decide_eq_true hcheck
  have howned := (parsed_of_start hparse).tree_parsed.toOwned
  replace hall : ∀ x, parsed.set.tree.Rooted parsed.set.modules x → _ :=
    fun x hx => hall x (List.mem_range.mpr (howned.rooted_lt_size hx))
  refine ⟨parsed, resolved, parsed', resolved', hparse, hresolve, hparse', hresolve', ?_, hmarked, hmarked'⟩
  refine ⟨hmodules, fun x hx => (hall x hx).1, fun x hx => (hall x hx).2.1, fun x hx => (hall x hx).2.2.1,
    fun x hx => (hall x hx).2.2.2.1, fun x hx d e hname hsub => ?_⟩
  -- All names are different here.
  have hpair := (hall x hx).2.2.2.2.sublist (hsub.map _)
  simp [hname] at hpair

/-- The two sources differ in the order of two usages only, and not the same definitions are marked. -/
theorem forkedSource_marks_depend_on_order : ∃ parsed resolved parsed' resolved',
    (start none).parseAll [forkedSource] = .ok parsed ∧ parsed.resolve = .ok resolved ∧
    (start none).parseAll [turnedSource] = .ok parsed' ∧ parsed'.resolve = .ok resolved' ∧
    parsed.set.Reordering parsed'.set turn ∧
    {d' | resolved'.set.tree.Marked d'} ≠ Set.image turn {d | resolved.set.tree.Marked d} := by
  obtain ⟨parsed, resolved, parsed', resolved', hparse, hresolve, hparse', hresolve', hφ, ⟨-, -, hc⟩, -, -, hc'⟩ :=
    exists_turned
  refine ⟨parsed, resolved, parsed', resolved', hparse, hresolve, hparse', hresolve', hφ, fun heq => ?_⟩
  obtain ⟨d, hd, hturn⟩ : 6 ∈ Set.image turn {d | resolved.set.tree.Marked d} := heq ▸ hc'
  exact hc (eq_six_of_turn hturn ▸ hd)

/-- The definition that is not marked in the forked source is overlooked there. -/
theorem forkedSource_overlooks : ∃ parsed resolved parsed' resolved',
    (start none).parseAll [forkedSource] = .ok parsed ∧ parsed.resolve = .ok resolved ∧
    (start none).parseAll [turnedSource] = .ok parsed' ∧ parsed'.resolve = .ok resolved' ∧
    parsed.set.Reordering parsed'.set turn ∧
    {d' | Relation.TransGen resolved'.set.tree.Refers d' d'} =
      Set.image turn {d | Relation.TransGen resolved.set.tree.Refers d d} ∧
    ¬ resolved.set.tree.Marked 6 ∧ parsed.set.Overlooked 6 := by
  obtain ⟨parsed, resolved, parsed', resolved', hparse, hresolve, hparse', hresolve', hφ, ⟨-, -, hc⟩, -, -, hc'⟩ :=
    exists_turned
  obtain ⟨hcycles, hiff, hiff', -⟩ := circularity_under_reordering hparse hresolve hparse' hresolve' hφ
  refine ⟨parsed, resolved, parsed', resolved', hparse, hresolve, hparse', hresolve', hφ, hcycles, hc, ?_⟩
  obtain ⟨d, hd, hturn⟩ : 6 ∈ Set.image turn {d | Relation.TransGen resolved.set.tree.Refers d d} :=
    hcycles ▸ (hiff' 6).mpr (.inl hc')
  exact ((hiff 6).mp (eq_six_of_turn hturn ▸ hd)).resolve_left hc

end Session

end PairMarkup
