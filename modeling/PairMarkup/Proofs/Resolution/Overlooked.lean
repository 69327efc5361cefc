import Mathlib.Data.List.TakeWhile
import PairMarkup.Proofs.Resolution.Circularity
import PairMarkup.Proofs.Resolution.Completion
import PairMarkup.Proofs.Resolution.Keeping

namespace PairMarkup

open List Config Relation Kind Progress

/-- A usage in `d` stands for `e`, as the unit is written. -/
def ModuleSet.Cites (set : ModuleSet) (d e : PairId) : Prop :=
  ∃ u, set.tree.Rooted set.modules u ∧ (set.tree.kind u).isAliasUsage = true ∧
    set.tree.enclosingDefinition? u = some d ∧
    set.tree.lexical? set.modules (set.tree.get u).nameText u = some e

namespace Config

open Progress PairTree

variable {set : ModuleSet} {m : Config}

section

variable (hset : set.Parsed) (hm : Leads (start set) m)

include hset hm

theorem leads_keepsPlaces : KeepsPlaces set.modules (initial set) m.progress :=
  induction_on (P := fun m => KeepsPlaces set.modules (initial set) m.progress)
    (.of_shape (start_noted set).shape_eq) (fun _ _ hm h hstep => h.trans (hstep.keepsPlaces hset hm)) hm

theorem leads_rooted_iff {x : PairId}
    (hx : x < set.tree.size) : m.progress.tree.Rooted set.modules x ↔ set.tree.Rooted set.modules x := by
  refine induction_on (P := fun m => m.progress.tree.Rooted set.modules x ↔ set.tree.Rooted set.modules x)
    (rooted_iff_of_shape (start_noted set).shape_eq) (fun m m' hm ih hstep => Iff.trans ?_ ih) hm
  cases hstep.advances hset hm with
  | same hshape => exact rooted_iff_of_shape hshape
  | @split s _ _ _ hshape =>
    have howned := (leads_tracked hset hm).2.covered.toOwned
    refine (rooted_iff_of_shape hshape).trans (howned.rooted_splitScope_iff s ?_)
    exact hx.trans_le (leads_keepsPlaces hset hm).size_le

/-- The walk makes no references but those that are written. -/
theorem cites_of_refers {d e : PairId} (h : m.progress.tree.Refers d e) : set.Cites d e := by
  obtain ⟨u, hd, hkind⟩ := h
  have hplaces := leads_keepsPlaces hset hm
  obtain ⟨hhandled, hlexical⟩ := (hset.bound hm).of_tied hkind
  have husage₀ : (set.tree.kind u).isAliasUsage := by
    refine (hplaces.usage_eq u).symm.trans ?_
    rw [hkind]
    rfl
  have hlt := lt_size_of_usage husage₀
  refine ⟨u, (leads_rooted_iff hset hm hlt).mp ((hset.leads_rooted hm).handled u hhandled), husage₀,
    (hplaces.enclosing_eq u hlt).symm.trans hd, ?_⟩
  exact (lexical_eq_of_places hplaces husage₀).symm.trans hlexical

end

end Config

variable {set : ModuleSet}

theorem ModuleSet.Parsed.run_refers_iff (hset : set.Parsed) {d e : PairId} :
    (run set).tree.Refers d e ↔ set.Cites d e := by
  have hrun := start_leads_run set
  refine ⟨cites_of_refers hset hrun, ?_⟩
  rintro ⟨u, hrooted, husage, hd, he⟩
  have hplaces := leads_keepsPlaces hset hrun
  have hlt := PairTree.lt_size_of_usage husage
  obtain ⟨m, hm, hu⟩ := (leads_rooted_iff hset hrun hlt).mpr hrooted
  have hbound := (hset.run_boundTo hm hu ((hplaces.usage_eq u).trans husage)).kind_eq
  have hlexical := (lexical_eq_of_places hplaces husage).trans he
  exact ⟨u, (hplaces.enclosing_eq u hlt).trans hd, hbound.trans (congrArg _ hlexical)⟩

theorem ModuleSet.Parsed.run_refers_eq (hset : set.Parsed) : (run set).tree.Refers = set.Cites :=
  funext fun _ => funext fun _ => propext hset.run_refers_iff

/-- What a visit recalls of the definition `c`, given the definitions entered so far and those among
    them that were entered by way of `c`. -/
structure Visit.Recalls (t : PairTree) (entered led : List PairId) (c : PairId) (v : Visit) : Prop where
  chain_entered : ∀ x ∈ v.chain, x ∈ entered
  led_iff : (t.kind v.id).isAliasDefinition = false → ∀ d, t.enclosingDefinition? v.id = some d →
    (d ∈ led ↔ c ∈ v.chain)
  after_led : ∀ x ∈ v.chain.dropWhile (· ≠ c), x ∈ led

namespace Visit

variable {t : PairTree} {v : Visit} {entered entered' led led' : List PairId} {c : PairId}

open Progress in
theorem Recalls.mono {modules : List PairId} {p p' : Progress} (h : v.Recalls p.tree entered led c)
    (hfollows : v.Follows p.tree) (hplaces : KeepsPlaces modules p p') (hlt : v.id < p.tree.size)
    (hentered : ∀ x ∈ entered, x ∈ entered') (hled : ∀ x ∈ entered, x ∈ led' ↔ x ∈ led) :
    v.Recalls p'.tree entered' led' c := by
  refine ⟨fun x hx => hentered x (h.chain_entered x hx), fun hplain d hd => ?_, fun x hx => ?_⟩
  · rw [hplaces.definition_eq] at hplain
    rw [hplaces.enclosing_eq v.id hlt] at hd
    have hlast := mem_of_getLast? ((hfollows.last_eq hplain).trans hd)
    rw [hled d (h.chain_entered d hlast)]
    exact h.led_iff hplain d hd
  · have hchain := (dropWhile_sublist _).subset hx
    exact (hled x (h.chain_entered x hchain)).mpr (h.after_led x hx)

theorem Recalls.below (h : v.Recalls t entered led c) (hwf : t.WellFormed)
    (hplain : (t.kind v.id).isAliasDefinition = false) : ∀ w ∈ v.below t, w.Recalls t entered led c := by
  intro w hw
  obtain ⟨x, hx, rfl⟩ := mem_map.mp hw
  refine ⟨h.chain_entered, fun _ d hd => ?_, h.after_led⟩
  rw [hwf.enclosingDefinition?_of_parent (hwf.mem_held_iff.mp hx), hplain] at hd
  exact h.led_iff hplain d hd

/-- The body of a definition recalls `c` if the chain to it does. -/
theorem recalls_body (hwf : t.WellFormed) (hdef : (t.kind v.id).isAliasDefinition)
    (hchain : ∀ x ∈ v.chain, x ∈ entered) (hled : v.id ∈ led ↔ c ∈ v.chain)
    (hafter : ∀ x ∈ v.chain.dropWhile (· ≠ c), x ∈ led) : ∀ w ∈ v.below t, w.Recalls t entered led c := by
  intro w hw
  obtain ⟨x, hx, rfl⟩ := mem_map.mp hw
  refine ⟨hchain, fun _ d hd => ?_, hafter⟩
  rw [hwf.enclosingDefinition?_of_parent (hwf.mem_held_iff.mp hx), if_pos hdef] at hd
  exact Option.some.inj hd ▸ hled

end Visit

variable {chain : List PairId}

/-- Of two members of a chain, the second is in the rest from the first one on, or the first in the
    rest from the second one on. -/
theorem mem_dropWhile_or {c e : PairId} (hc : c ∈ chain) (he : e ∈ chain) :
    c ∈ chain.dropWhile (· ≠ e) ∨ e ∈ chain.dropWhile (· ≠ c) := by
  induction chain with
  | nil => cases hc
  | cons a chain ih =>
    rcases mem_cons.mp hc with rfl | hc'
    · refine .inr ?_
      rw [dropWhile_cons_of_neg (by simp)]
      exact he
    rcases mem_cons.mp he with rfl | he'
    · refine .inl ?_
      rw [dropWhile_cons_of_neg (by simp)]
      exact hc
    refine (ih hc' he').imp (fun h => ?_) fun h => ?_
    · by_cases hae : a = e
      · rw [dropWhile_cons_of_neg (by simp [hae])]
        exact mem_cons_of_mem _ hc'
      · rw [dropWhile_cons_of_pos (by simp [hae])]
        exact h
    · by_cases hac : a = c
      · rw [dropWhile_cons_of_neg (by simp [hac])]
        exact mem_cons_of_mem _ he'
      · rw [dropWhile_cons_of_pos (by simp [hac])]
        exact h

/-- What is in a longer chain from `c` on. -/
theorem mem_dropWhile_append {c e x : PairId} (hx : x ∈ (chain ++ [e]).dropWhile (· ≠ c)) :
    c ∈ chain ++ [e] ∧ (x ∈ chain.dropWhile (· ≠ c) ∨ x = e) := by
  constructor
  · by_contra hc
    rw [dropWhile_eq_nil_iff.mpr] at hx
    · cases hx
    · intro y hy
      simpa using fun heq : y = c => hc (heq ▸ hy)
  · rw [dropWhile_append] at hx
    split at hx
    · exact .inr (mem_singleton.mp ((dropWhile_sublist _).subset hx))
    · exact (mem_append.mp hx).imp_right mem_singleton.mp

namespace Worklist

open Progress

/-- The pair that is visited next is a usage of `e`, which was entered before and is not on the
    chain that led here, and `c` is on it. -/
def Overlooks (o : Worklist) (c e : PairId) : Prop :=
  ∃ v l, o.pending = v :: l ∧ (o.progress.tree.kind v.id).isAliasUsage = true ∧
    v.aliases (o.progress.tree.get v.id).nameText = some e ∧ e ∉ v.chain ∧ e ∈ o.progress.entered ∧
    c ∈ v.chain

/-- The definitions that were entered by way of `c`. Their references stay among them and do not
    lead to `c`, unless `c` is marked, or was overlooked at the reference. -/
structure Led (overlooks : PairId → Prop) (c : PairId) (o : Worklist) (led : List PairId) : Prop where
  self_led : c ∈ o.progress.entered → c ∈ led
  led_entered : ∀ x ∈ led, x ∈ o.progress.entered
  refers_entered : ∀ x y, o.progress.tree.Refers x y → x ∈ o.progress.entered
  recalls : ∀ v ∈ o.pending, v.Recalls o.progress.tree o.progress.entered led c
  refers : ∀ x ∈ led, ∀ y, o.progress.tree.Refers x y → (y ∈ led ∧ y ≠ c) ∨ o.progress.tree.Marked c ∨ overlooks y

variable {modules : List PairId} {size₀ : Nat} {root : Scope} {passes : PairId → PairId → Prop}
  {overlooks : PairId → Prop} {c e : PairId} {led led' : List PairId} {l l' : List Visit}
  {opens opens' : List PairId} {p p' : Progress} {v : Visit}

namespace Led

/-- Nothing was entered. Only a reference that was made by now has to be looked at. -/
theorem of_places (h : Led overlooks c ⟨l, opens, p⟩ led) (hentered : p'.entered = p.entered)
    (hpending : ∀ w ∈ l', w.Recalls p'.tree p'.entered led c)
    (hmarked : p.tree.Marked c → p'.tree.Marked c)
    (hrefers : ∀ x y, p'.tree.Refers x y → p.tree.Refers x y ∨ x ∈ p.entered ∧
      (x ∈ led → (y ∈ led ∧ y ≠ c) ∨ p'.tree.Marked c ∨ overlooks y)) :
    Led overlooks c ⟨l', opens', p'⟩ led where
  self_led hc := h.self_led (hentered ▸ hc)
  led_entered x hx := hentered ▸ h.led_entered x hx
  refers_entered x y hxy := by
    rw [hentered]
    exact (hrefers x y hxy).elim (h.refers_entered x y) And.left
  recalls := hpending
  refers x hx y hxy := by
    rcases hrefers x y hxy with hold | ⟨-, hnew⟩
    · exact (h.refers x hx y hold).imp_right (.imp_left hmarked)
    · exact hnew hx

theorem of_same (h : Led overlooks c ⟨l, opens, p⟩ led) (hsame : SameTies modules p p')
    (hentered : p'.entered = p.entered)
    (hpending : ∀ w ∈ l', w.Recalls p'.tree p'.entered led c) : Led overlooks c ⟨l', opens', p'⟩ led :=
  h.of_places hentered hpending (hsame.marked_iff c).mpr fun _ _ hxy => .inl (hsame.refers_iff.mp hxy)

end Led

/-- Those who were entered by way of `c`, when one more definition is. -/
def ledWith (c e : PairId) (chain led : List PairId) : List PairId := if c ∈ chain then e :: led else led

theorem mem_ledWith {chain : List PairId} {x : PairId} : x ∈ ledWith c e chain led ↔ x ∈ led ∨ c ∈ chain ∧ x = e := by
  unfold ledWith
  split
  · rename_i hc
    simp [hc, or_comm]
  · rename_i hc
    simp [hc]

namespace Led

/-- A definition is entered. It may be tied to a usage by then, in a definition `d` that was entered
    before and recalls what it should. -/
theorem enter (h : Led overlooks c ⟨l, opens, p⟩ led) {chain : List PairId} {aliases : String → Option PairId}
    (hnew : e ∉ p.entered) (hentered : p'.entered = e :: p.entered) (hwf : p'.tree.WellFormed)
    (hdef : (p'.tree.kind e).isAliasDefinition)
    (hchain : ∀ x ∈ chain, x ∈ p.entered) (hafter : ∀ x ∈ chain.dropWhile (· ≠ c), x ∈ led)
    (hpending : ∀ w ∈ l', w.Recalls p'.tree p'.entered (ledWith c e (chain ++ [e]) led) c)
    (hmarked : p.tree.Marked c → p'.tree.Marked c)
    (hrefers : ∀ x y, p'.tree.Refers x y → p.tree.Refers x y ∨ x ∈ p.entered ∧ y = e ∧ (x ∈ led → c ∈ chain)) :
    Led overlooks c ⟨(Visit.mk aliases (chain ++ [e]) opens' e).below p'.tree ++ l', opens', p'⟩
      (ledWith c e (chain ++ [e]) led) := by
  have hmem : ∀ {x}, x ∈ ledWith c e (chain ++ [e]) led ↔ x ∈ led ∨ c ∈ chain ++ [e] ∧ x = e := mem_ledWith
  refine ⟨fun hc => ?_, fun x hx => ?_, fun x y hxy => ?_, fun w hw => ?_, fun x hx y hxy => ?_⟩
  · rw [hentered] at hc
    rcases mem_cons.mp hc with rfl | hc
    · exact hmem.mpr (.inr ⟨by simp, rfl⟩)
    · exact hmem.mpr (.inl (h.self_led hc))
  · rw [hentered]
    rcases hmem.mp hx with hx | ⟨-, rfl⟩
    · exact mem_cons_of_mem _ (h.led_entered x hx)
    · exact mem_cons_self
  · rw [hentered]
    exact mem_cons_of_mem _ ((hrefers x y hxy).elim (h.refers_entered x y) And.left)
  · rcases mem_append.mp hw with hw | hw
    · refine Visit.recalls_body hwf hdef (fun x hx => ?_) ?_ (fun x hx => ?_) w hw
      · rw [hentered, mem_cons]
        rcases mem_append.mp hx with hx | hx
        · exact .inr (hchain x hx)
        · exact .inl (mem_singleton.mp hx)
      · rw [hmem]
        exact ⟨fun he => (he.resolve_left fun he => hnew (h.led_entered e he)).1, fun hc => .inr ⟨hc, rfl⟩⟩
      · obtain ⟨hc, hx⟩ := mem_dropWhile_append hx
        exact hmem.mpr (hx.imp (hafter x) fun hx => ⟨hc, hx⟩)
    · exact hpending w hw
  · rcases hrefers x y hxy with hold | ⟨hxe, rfl, hrecall⟩
    · rcases hmem.mp hx with hx | ⟨hc, rfl⟩
      · refine (h.refers x hx y hold).imp (fun hy => ⟨hmem.mpr (.inl hy.1), hy.2⟩) (.imp_left hmarked)
      · exact absurd (h.refers_entered x y hold) hnew
    · have hne : x ≠ y := fun heq => hnew (heq ▸ hxe)
      have hxled := (hmem.mp hx).resolve_right fun hx => hne hx.2
      have hc := hrecall hxled
      refine .inl ⟨hmem.mpr (.inr ⟨mem_append_left _ hc, rfl⟩), ?_⟩
      rintro rfl
      exact hnew (hchain _ hc)

section

variable (h : Led overlooks c ⟨l, opens, p⟩ led) (htracked : Tracked modules size₀ root ⟨l, opens, p⟩)
  (hfaithful : Faithful modules ⟨l, opens, p⟩) (hplaces : KeepsPlaces modules p p')

include h htracked hfaithful hplaces

theorem recalls_mono (hentered : ∀ x ∈ p.entered, x ∈ p'.entered)
    (hled : ∀ x ∈ p.entered, x ∈ led' ↔ x ∈ led) : ∀ w ∈ l, w.Recalls p'.tree p'.entered led' c :=
  fun w hw => (h.recalls w hw).mono (hfaithful.follows w hw) hplaces
    (htracked.covered.ids_lt w.id (mem_map_of_mem hw)) hentered hled

theorem recalls_held (hl : l = v :: l') (hplain : (p.tree.kind v.id).isAliasDefinition = false)
    (hwf : p'.tree.WellFormed) (hentered : ∀ x ∈ p.entered, x ∈ p'.entered)
    (hled : ∀ x ∈ p.entered, x ∈ led' ↔ x ∈ led) :
    ∀ w ∈ v.below p'.tree ++ l', w.Recalls p'.tree p'.entered led' c := by
  have hkeep := h.recalls_mono htracked hfaithful hplaces hentered hled
  subst hl
  intro w hw
  rcases mem_append.mp hw with hw | hw
  · exact (hkeep v mem_cons_self).below hwf ((hplaces.definition_eq v.id).trans hplain) w hw
  · exact hkeep w (mem_cons_of_mem _ hw)

end

/-- A usage that is visited is in a definition that was entered, and in one that was led to if `c` is
    on the chain. -/
theorem enclosing (h : Led overlooks c ⟨v :: l, opens, p⟩ led) (hfaithful : Faithful modules ⟨v :: l, opens, p⟩)
    (husage : (p.tree.kind v.id).isAliasUsage) {x : PairId}
    (hx : p.tree.enclosingDefinition? v.id = some x) : x ∈ p.entered ∧ (x ∈ led → c ∈ v.chain) := by
  have hrecalls := h.recalls v mem_cons_self
  have hmem := (hfaithful.follows v mem_cons_self).enclosing_mem_chain husage hx
  exact ⟨hrecalls.chain_entered x hmem, (hrecalls.led_iff (isAliasDefinition_of_usage husage) x hx).mp⟩

end Led

theorem mem_ledWith_iff (chain : List PairId) (hnew : e ∉ p.entered) :
    ∀ x ∈ p.entered, x ∈ ledWith c e chain led ↔ x ∈ led := by
  intro x hx
  rw [mem_ledWith, or_iff_left]
  rintro ⟨-, rfl⟩
  exact hnew hx

theorem Step.exists_led {o o' : Worklist} (hstep : Step root passes o o') (htracked : Tracked modules size₀ root o)
    (hfaithful : o.Faithful modules) (hoverlooks : ∀ e, o.Overlooks c e → overlooks e)
    (h : Led overlooks c o led) : ∃ led', Led overlooks c o' led' := by
  have hcovered' := (hstep.tracked htracked).covered
  have hwf' := hcovered'.wellFormed
  cases hstep with
  | note hperm hnoted =>
    have hkeeps : KeepsTies modules _ _ := hnoted.keepsTies
    refine ⟨led, h.of_same hkeeps.toSameTies hnoted.entered_eq fun w hw => ?_⟩
    exact h.recalls_mono htracked hfaithful hkeeps.toKeepsPlaces (fun x hx => hnoted.entered_eq ▸ hx)
      (fun _ _ => .rfl) w (hperm.mem_iff.mp hw)
  | close hnoted =>
    have hkeeps : KeepsTies modules _ _ := hnoted.keepsTies
    refine ⟨led, h.of_same hkeeps.toSameTies hnoted.entered_eq ?_⟩
    exact h.recalls_mono htracked hfaithful hkeeps.toKeepsPlaces (fun x hx => hnoted.entered_eq ▸ hx) fun _ _ => .rfl
  | @skip v l p =>
    have hkeeps : KeepsTies modules p p := .refl p
    exact ⟨led, h.of_same hkeeps.toSameTies rfl fun w hw => h.recalls w (mem_cons_of_mem _ hw)⟩
  | @postpone v l l' p hdef hperm =>
    have hkeeps : KeepsTies modules p p := .refl p
    refine ⟨led, h.of_same hkeeps.toSameTies rfl fun w hw => ?_⟩
    rcases mem_cons.mp (hperm.mem_iff.mp hw) with rfl | hw
    · have hnot : ¬ (p.tree.kind v.id).isAliasDefinition = false := by simp [hdef]
      exact ⟨fun x hx => absurd hx not_mem_nil, (absurd · hnot), fun x hx => absurd hx not_mem_nil⟩
    · exact h.recalls w (mem_cons_of_mem _ hw)
  | @enter v l p p' hdef hnew hnoted =>
    have hkeeps : KeepsTies modules p p' := .of_met hnoted
    have hold : ∀ x ∈ p.entered, x ∈ p'.entered := fun x hx => by
      rw [hnoted.entered_eq]
      exact mem_cons_of_mem _ hx
    have hpending := h.recalls_mono htracked hfaithful hkeeps.toKeepsPlaces hold
      (mem_ledWith_iff (c := c) ([] ++ [v.id]) hnew)
    exact ⟨_, h.enter hnew hnoted.entered_eq hwf' ((hkeeps.definition_eq v.id).trans hdef)
      (fun x hx => absurd hx not_mem_nil) (fun x hx => absurd hx not_mem_nil)
      (fun w hw => hpending w (mem_cons_of_mem _ hw)) (hkeeps.marked_iff c).mpr
      fun x y hxy => .inl (hkeeps.refers_iff.mp hxy)⟩
  | @handle v l p p' hplain _ hnoted =>
    have hkeeps : KeepsTies modules p p' := keepsTies_handle htracked.covered.wellFormed hnoted
    have hentered : p'.entered = p.entered := hnoted.entered_eq
    refine ⟨led, h.of_same hkeeps.toSameTies hentered ?_⟩
    exact h.recalls_held htracked hfaithful hkeeps.toKeepsPlaces rfl hplain hwf'
      (fun x hx => hentered ▸ hx) fun _ _ => .rfl
  | @unbound v l p p₁ branch husage _ hnoted =>
    have hsame : SameTies modules p (p₁.reportName branch .aliasIsNotDefined v.id) :=
      (KeepsTies.of_met hnoted).toSameTies.trans (.reportName ..)
    have halike := reportName_alike p₁ branch .aliasIsNotDefined v.id
    have hentered := halike.entered_eq.trans hnoted.entered_eq
    refine ⟨led, h.of_same hsame hentered ?_⟩
    rw [← below_eq_of_shape halike.shape_eq]
    exact h.recalls_held htracked hfaithful hsame.toKeepsPlaces rfl (isAliasDefinition_of_usage husage)
      hwf' (fun x hx => hentered ▸ hx) fun _ _ => .rfl
  | @circular v l p p₁ branch e husage hfound he hnoted =>
    have hties : Ties modules p _ v.id e (v.chain.dropWhile (· ≠ e)) := ties_circular husage hnoted branch _
    have halike := (handled_tie_alike husage hnoted e).trans
      (foldl_markCircular_marks branch (v.chain.dropWhile (· ≠ e)) (p₁.tie v.id e)).toAlike
    have hentered := halike.entered_eq.trans hnoted.entered_eq
    refine ⟨led, h.of_places hentered ?_ (fun hc => (hties.marked_iff c).mpr (.inl hc)) fun x y hxy => ?_⟩
    · rw [← below_eq_of_shape halike.shape_eq]
      exact h.recalls_held htracked hfaithful hties.toKeepsPlaces rfl
        (isAliasDefinition_of_usage husage) hwf' (fun x hx => hentered ▸ hx) fun _ _ => .rfl
    · refine ((hties.refers_iff (htracked.unbound hfaithful.bound husage)).mp hxy).imp_right ?_
      rintro ⟨hx, rfl⟩
      obtain ⟨hxe, hrecall⟩ := h.enclosing hfaithful husage hx
      refine ⟨hxe, fun hled => ?_⟩
      have hc := hrecall hled
      have hrecalls := h.recalls v mem_cons_self
      by_cases hcircle : c ∈ v.chain.dropWhile (· ≠ y)
      · have hdef := htracked.covered.entered_definition c (hrecalls.chain_entered c hc)
        exact .inr (.inl ((hties.marked_iff c).mpr (.inr ⟨hcircle, hdef⟩)))
      · refine .inl ⟨hrecalls.after_led y ((mem_dropWhile_or hc he).resolve_left hcircle), ?_⟩
        rintro rfl
        exact hcircle ((mem_dropWhile_or hc hc).elim id id)
  | @settled v l p p₁ e husage hfound hoff he hnoted =>
    have hties : Ties modules p (p₁.tie v.id e) v.id e [] := ties_settled husage hnoted
    have halike := handled_tie_alike husage hnoted e
    have hentered := halike.entered_eq.trans hnoted.entered_eq
    refine ⟨led, h.of_places hentered ?_ (fun hc => (hties.marked_iff c).mpr (.inl hc)) fun x y hxy => ?_⟩
    · rw [← below_eq_of_shape halike.shape_eq]
      exact h.recalls_held htracked hfaithful hties.toKeepsPlaces rfl
        (isAliasDefinition_of_usage husage) hwf' (fun x hx => hentered ▸ hx) fun _ _ => .rfl
    · refine ((hties.refers_iff (htracked.unbound hfaithful.bound husage)).mp hxy).imp_right ?_
      rintro ⟨hx, rfl⟩
      obtain ⟨hxe, hrecall⟩ := h.enclosing hfaithful husage hx
      exact ⟨hxe, fun hled => .inr (.inr (hoverlooks y ⟨v, l, rfl, husage, hfound, hoff, he, hrecall hled⟩))⟩
  | @follow v l p p₁ p₂ p' e husage hfound hoff hnew hnoted haround hopen =>
    have hties : Ties modules p p' v.id e [] := ties_follow husage hnoted haround hopen
    have halike := (handled_tie_alike husage hnoted e).trans haround.alike
    have hentered : p'.entered = e :: p.entered :=
      hopen.entered_eq.trans (congrArg (e :: ·) (halike.entered_eq.trans hnoted.entered_eq))
    have hold : ∀ x ∈ p.entered, x ∈ p'.entered := fun x hx => hentered ▸ mem_cons_of_mem _ hx
    have hrecalls := h.recalls v mem_cons_self
    have hdef : (p'.tree.kind e).isAliasDefinition := hcovered'.entered_definition e (hentered ▸ mem_cons_self)
    refine ⟨_, h.enter hnew hentered hwf' hdef hrecalls.chain_entered hrecalls.after_led ?_
      (fun hc => (hties.marked_iff c).mpr (.inl hc)) fun x y hxy => ?_⟩
    · rw [← below_eq_of_shape (hopen.shape_eq.trans halike.shape_eq)]
      exact h.recalls_held htracked hfaithful hties.toKeepsPlaces rfl
        (isAliasDefinition_of_usage husage) hwf' hold (mem_ledWith_iff _ hnew)
    · refine ((hties.refers_iff (htracked.unbound hfaithful.bound husage)).mp hxy).imp_right ?_
      rintro ⟨hx, rfl⟩
      obtain ⟨hxe, hrecall⟩ := h.enclosing hfaithful husage hx
      exact ⟨hxe, rfl, hrecall⟩

end Worklist

/-- At some moment of the walk a usage of `e` is met by way of `c`, and `e` was entered before. -/
def ModuleSet.Overlooks (set : ModuleSet) (c e : PairId) : Prop :=
  ∃ m, Config.Leads (Config.start set) m ∧ m.worklist.Overlooks c e

/-- At some moment of the walk `c` is overlooked: from where the walk does not go on, references
    lead back to it. -/
def ModuleSet.Overlooked (set : ModuleSet) (c : PairId) : Prop :=
  ∃ e, set.Overlooks c e ∧ Relation.ReflTransGen set.Cites e c

namespace ModuleSet.Parsed

open Progress Config

variable {set : ModuleSet} {c : PairId}

section

variable (hset : set.Parsed)

include hset

theorem start_led (c : PairId) : Worklist.Led (set.Overlooks c) c (start set).worklist [] := by
  have hentered : (start set).worklist.progress.entered = [] := (start_noted set).entered_eq
  refine ⟨fun hc => ?_, fun x hx => ?_, fun x y hxy => absurd hxy (hset.start_not_refers x y), fun v hv => ?_,
    fun x hx => absurd hx not_mem_nil⟩
  · rw [hentered] at hc
    cases hc
  · cases hx
  · have hfollows := hset.start_faithful.follows v hv
    rw [pending_start] at hv
    obtain ⟨m, -, rfl⟩ := mem_map.mp hv
    refine ⟨fun x hx => absurd hx not_mem_nil, fun hplain d hd => ?_, fun x hx => absurd hx not_mem_nil⟩
    have hlast := hfollows.last_eq hplain
    rw [hd] at hlast
    cases hlast

theorem exists_led (c : PairId) {m : Config} (hm : Leads (start set) m) :
    ∃ led, Worklist.Led (set.Overlooks c) c m.worklist led := by
  refine induction_on (P := fun m => ∃ led, Worklist.Led (set.Overlooks c) c m.worklist led)
    ⟨[], hset.start_led c⟩ (fun m m' hm h hstep => ?_) hm
  obtain ⟨led, hled⟩ := h
  obtain ⟨horderly, htracked⟩ := leads_tracked hset hm
  exact (hstep.worklist_of_tracked hm horderly htracked).exists_led htracked (hset.faithful hm)
    (fun e he => ⟨m, hm, he⟩) hled

/-- A definition on a cycle is marked, or else overlooked. -/
theorem overlooked_of_cycle (hc : TransGen set.Cites c c)
    (hmarked : ¬ (run set).tree.Marked c) : set.Overlooked c := by
  obtain ⟨led, hled⟩ := hset.exists_led c (start_leads_run set)
  have hself : c ∈ led := by
    obtain ⟨y, hy, -⟩ := TransGen.head'_iff.mp hc
    exact hled.self_led (hled.refers_entered c y (hset.run_refers_iff.mpr hy))
  by_contra hnot
  -- The cycle never leaves what was entered by way of `c`, and does not come back to it there.
  have hstay : ∀ {x y}, x ∈ led → set.Cites x y → ReflTransGen set.Cites y c → y ∈ led ∧ y ≠ c := by
    intro x y hx hxy hyc
    rcases hled.refers x hx y (hset.run_refers_iff.mpr hxy) with hy | hc | hoverlooks
    · exact hy
    · exact absurd hc hmarked
    · exact absurd ⟨y, hoverlooks, hyc⟩ hnot
  have hpath : ∀ y, TransGen set.Cites c y → ReflTransGen set.Cites y c → y ∈ led ∧ y ≠ c := by
    intro y hy
    induction hy with
    | single hcy => exact hstay hself hcy
    | tail _ hyz ih => exact fun hzc => hstay (ih (.head hyz hzc)).1 hyz hzc
  exact (hpath c hc .refl).2 rfl

theorem cycle_of_overlooked (h : set.Overlooked c) : TransGen set.Cites c c := by
  obtain ⟨e, ⟨m, hm, v, l, hpending, husage, he, -, -, hc⟩, hback⟩ := h
  have hv : v ∈ m.worklist.pending := hpending ▸ mem_cons_self
  have hfollows := (hset.faithful hm).follows v hv
  have hplaces := leads_keepsPlaces hset hm
  have husage₀ : (set.tree.kind v.id).isAliasUsage := (hplaces.usage_eq v.id).symm.trans husage
  have hlt := PairTree.lt_size_of_usage husage₀
  have hlast := hfollows.last_eq (isAliasDefinition_of_usage husage)
  cases hd : v.chain.getLast? with
  | none =>
    rw [getLast?_eq_none_iff.mp hd] at hc
    cases hc
  | some d =>
    rw [hd] at hlast
    rw [(leads_tracked hset hm).2.aliases_eq v hv] at he
    have hcites : set.Cites d e := by
      refine ⟨v.id, (leads_rooted_iff hset hm hlt).mp ((hset.leads_rooted hm).pending v hv), husage₀,
        (hplaces.enclosing_eq v.id hlt).symm.trans hlast.symm, ?_⟩
      exact (lexical_eq_of_places hplaces husage₀).symm.trans he
    have hchain := hfollows.refers.imp fun _ _ => cites_of_refers hset hm
    exact .trans_right (reflTransGen_getLast hchain hd hc) (.head' hcites hback)

/-- The definitions on cycles are those that are marked and those that are overlooked. -/
theorem refers_cycle_iff : TransGen (run set).tree.Refers c c ↔ (run set).tree.Marked c ∨ set.Overlooked c := by
  have hcycles := (hset.faithful (start_leads_run set)).cycles c
  change _ → TransGen (run set).tree.Refers c c at hcycles
  rw [hset.run_refers_eq] at hcycles ⊢
  refine ⟨fun hc => or_iff_not_imp_left.mpr (hset.overlooked_of_cycle hc), ?_⟩
  rintro (hmarked | hoverlooked)
  · exact hcycles hmarked
  · exact hset.cycle_of_overlooked hoverlooked

theorem rooted_of_cites {d e : PairId} (h : set.Cites d e) :
    set.tree.Rooted set.modules d ∧ set.tree.Rooted set.modules e := by
  obtain ⟨u, hu, -, hd, he⟩ := h
  exact ⟨hset.tree_parsed.toOwned.rooted_ancestor hu (mem_of_find?_eq_some hd),
    hset.tree_parsed.toOwned.rooted_of_lexical? hu he⟩

end

end ModuleSet.Parsed

end PairMarkup
