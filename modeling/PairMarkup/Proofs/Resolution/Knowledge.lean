import PairMarkup.Proofs.Resolution.Ways

namespace PairMarkup

open List Kind

namespace PairTree

/-- No definition at or around the pair is inside of a scope that shadows its own prefix in the
    tree `t₀` as it was read. -/
def Steady (t₀ t : PairTree) (x : PairId) : Prop :=
  ∀ d ∈ x :: t.ancestors x, (t.kind d).isAliasDefinition = true → ∀ s ∈ t.ancestors d, ¬ t₀.Shadows s

instance (t₀ t : PairTree) (x : PairId) : Decidable (t₀.Steady t x) :=
  inferInstanceAs (Decidable (∀ d ∈ _, _))

theorem Steady.of_held {t₀ t : PairTree} (hwf : t.WellFormed) {x c : PairId} (h : t₀.Steady t c)
    (hc : c ∈ (t.get x).held) : t₀.Steady t x := by
  intro d hd
  refine h d (mem_cons_of_mem _ ?_)
  rw [hwf.ancestors_eq_cons (hwf.mem_held_iff.mp hc)]
  exact hd

/-- A module is neither a scope nor the element that a split adds. -/
theorem Owned.module_ne_of_named {t : PairTree} {modules : List PairId} (h : t.Owned modules) {s : PairId}
    (hnamed : t.NamedScope s) : ∀ m ∈ modules, m ≠ t.size ∧ m ≠ s := by
  intro m hm
  refine ⟨(h.module_lt_size hm).ne, ?_⟩
  rintro rfl
  have hmodule := h.module_kind m hm
  have hscope := hnamed.1
  cases hkind : t.kind m <;> simp [hkind, isModule, isScope] at hmodule hscope

end PairTree

namespace Progress

open PairTree

variable {set : ModuleSet} {p p' : Progress}

/-- The namespaces at pairs that the walk can come to are as before. -/
structure KeepsNamespaces (set : ModuleSet) (p p' : Progress) : Prop where
  met : ∀ x, p.Met x → p'.Met x
  way : ∀ x, p.tree.Way set.modules p.Met x → p'.tree.Way set.modules p'.Met x
  outside : ∀ before, p'.tree.namespaceOutside? set.modules before = p.tree.namespaceOutside? set.modules before
  around : ∀ x, p.tree.Way set.modules p.Met x → ∀ before,
    p'.tree.namespaceAround? set.modules before x = p.tree.namespaceAround? set.modules before x
  inside : ∀ x, p.tree.Way set.modules p.Met x → p.Met x → ∀ before,
    p'.tree.namespaceAt? set.modules before x = p.tree.namespaceAt? set.modules before x
  steady : ∀ x, p.tree.Way set.modules p.Met x → set.tree.Steady p'.tree x → set.tree.Steady p.tree x
  default : ∀ x, p.tree.Way set.modules p.Met x → set.tree.Steady p'.tree x →
    p'.tree.defaultAround? set.modules x = p.tree.defaultAround? set.modules x

theorem KeepsNamespaces.of_shape (hwf : p.tree.WellFormed) (hshape : p'.tree.shape = p.tree.shape)
    (hmet : ∀ x, p.Met x → p'.Met x) : KeepsNamespaces set p p' where
  met := hmet
  way x h := by
    refine h.transport hmet (fun q _ _ => held_eq_of_shape hshape q) fun owner d hd => ?_
    rw [← (hwf.of_shape hshape).mem_hoisted_iff, ← hoisted_shape, hshape, hoisted_shape]
    exact hwf.mem_hoisted_iff.mpr hd
  outside before := by
    rw [← namespaceOutside?_shape, hshape, namespaceOutside?_shape]
  around x _ before := by
    rw [← namespaceAround?_shape, hshape, namespaceAround?_shape]
  inside x _ _ before := by
    rw [← namespaceAt?_shape, hshape, namespaceAt?_shape]
  steady x _ h d hd hdef s hs := by
    have hancestors : ∀ x, p'.tree.ancestors x = p.tree.ancestors x := fun x => by
      rw [ancestors_eq_of_shape hshape]
    refine h d (hancestors x ▸ hd) ?_ s (hancestors d ▸ hs)
    exact (isAliasDefinition_eq_of_shape hshape d).trans hdef
  default x _ _ := by
    rw [← defaultAround?_shape, hshape, defaultAround?_shape]

/-- A scope that is split is one that the walk did not come to, and so it is around a pair only if
    a definition is in between. -/
theorem KeepsNamespaces.of_split {s : PairId} (howned : p.tree.Owned set.modules)
    (hnamed : p.tree.NamedScope s) (hunmet : ¬ p.Met s) (hread : p.tree.Shadows s → set.tree.Shadows s)
    (hmet : ∀ x, p.Met x → p'.Met x) (hsplit : p.tree.IsSplit p'.tree s) : KeepsNamespaces set p p' := by
  have hwf := howned.wellFormed
  have hs := hnamed.lt_size
  have hmodules := howned.module_ne_of_named hnamed
  have hne : ∀ {x}, p.tree.Way set.modules p.Met x → x ≠ p.tree.size := fun h =>
    (h.lt_size howned).ne
  have hoff : ∀ {x}, p.tree.Way set.modules p.Met x → p.tree.OffItems s x := fun h =>
    h.offItems howned hunmet
  have habove : ∀ {x}, x ≠ p.tree.size → ∀ a ∈ p.tree.ancestors x, a ∈ p'.tree.ancestors x := by
    intro x hx a ha
    rw [← hsplit.ancestors_eq hwf hs hx] at ha
    exact mem_of_mem_filter ha
  have hsteady : ∀ x, p.tree.Way set.modules p.Met x → set.tree.Steady p'.tree x → set.tree.Steady p.tree x := by
    intro x hx h d hd hdef a ha
    have hdne : d ≠ p.tree.size := (lt_size_of_definition hdef).ne
    refine h d ?_ ((hsplit.flag_eq (f := isAliasDefinition) rfl d).trans hdef) a (habove hdne a ha)
    exact (mem_cons.mp hd).elim (· ▸ mem_cons_self) fun hd => mem_cons_of_mem _ (habove (hne hx) d hd)
  refine ⟨hmet, fun x h => ?_, fun before => hsplit.namespaceOutside?_eq hnamed hmodules before,
    fun x h before => hsplit.namespaceAround?_eq hnamed hwf hmodules (hne h) (hoff h) before,
    fun x h hx before => ?_, hsteady, fun x h hx => ?_⟩
  · refine h.transport hmet (fun q hway hq => hsplit.held_eq (hne hway) ?_) fun owner d hd => ?_
    · rintro rfl
      exact hunmet hq
    · rw [← (hsplit.wellFormed hwf hs).mem_hoisted_iff, hsplit.hoisted_eq hwf hs hnamed.1]
      exact hwf.mem_hoisted_iff.mpr hd
  · refine hsplit.namespaceAt?_eq_of_ne hnamed hwf hmodules (hne h) ?_ (hoff h) before
    rintro rfl
    exact hunmet hx
  · refine hsplit.defaultAround?_eq hnamed hwf hmodules (hne h) (hoff h) fun hmem hshadows => ?_
    obtain ⟨d, hd, hdef, habove⟩ := h.definition_between howned hmem hunmet
    exact hsteady x h hx d hd hdef s habove (hread hshadows)

theorem KeepsNamespaces.trans {p'' : Progress} (h : KeepsNamespaces set p p')
    (h' : KeepsNamespaces set p' p'') : KeepsNamespaces set p p'' where
  met x hx := h'.met x (h.met x hx)
  way x hx := h'.way x (h.way x hx)
  outside before := (h'.outside before).trans (h.outside before)
  around x hx before := (h'.around x (h.way x hx) before).trans (h.around x hx before)
  inside x hx hmet before := (h'.inside x (h.way x hx) (h.met x hmet) before).trans (h.inside x hx hmet before)
  steady x hx hsteady := h.steady x hx (h'.steady x (h.way x hx) hsteady)
  default x hx hsteady := (h'.default x (h.way x hx) hsteady).trans
    (h.default x hx (h'.steady x (h.way x hx) hsteady))

theorem Advances.keepsNamespaces (h : Advances p p') (howned : p.tree.Owned set.modules)
    (hread : ∀ s, ¬ p.Met s → p.tree.Shadows s → set.tree.Shadows s) : KeepsNamespaces set p p' := by
  have hwf := howned.wellFormed
  cases h with
  | same hshape hmet => exact .of_shape hwf hshape hmet
  | @split s hnamed hunmet _ hshape hmet =>
    have hsplit := isSplit_splitScope hwf hnamed
    have hwf' := hsplit.wellFormed hwf hnamed.lt_size
    have hfirst : KeepsNamespaces set p { p' with set := { p'.set with tree := p.tree.splitScope s } } :=
      .of_split howned hnamed hunmet (hread s hunmet) hmet hsplit
    exact hfirst.trans (.of_shape hwf' hshape fun _ => id)

/-- The walk can come to the pair, and the scope knows the namespaces around it. -/
structure KnowsAround (set : ModuleSet) (p : Progress) (scope : Scope) (x : PairId) : Prop where
  way : p.tree.Way set.modules p.Met x
  names : ∀ before, scope.namespaceFor? before = p.tree.namespaceAround? set.modules before x
  default : set.tree.Steady p.tree x → scope.defaultNamespace? = p.tree.defaultAround? set.modules x

/-- The walk came to the pair, and the scope knows the namespaces at it. -/
structure KnowsInside (set : ModuleSet) (p : Progress) (scope : Scope) (x : PairId) : Prop where
  met : p.Met x
  way : p.tree.Way set.modules p.Met x
  names : ∀ before, scope.namespaceFor? before = p.tree.namespaceAt? set.modules before x
  default : set.tree.Steady p.tree x → scope.defaultNamespace? = p.tree.defaultAround? set.modules x

variable {scope : Scope} {x c : PairId} {t : PairTree}

theorem KnowsAround.of_keeps (h : KnowsAround set p scope x) (hkeeps : KeepsNamespaces set p p') :
    KnowsAround set p' scope x where
  way := hkeeps.way x h.way
  names before := (h.names before).trans (hkeeps.around x h.way before).symm
  default hsteady := (h.default (hkeeps.steady x h.way hsteady)).trans (hkeeps.default x h.way hsteady).symm

theorem KnowsInside.of_keeps (h : KnowsInside set p scope x) (hkeeps : KeepsNamespaces set p p') :
    KnowsInside set p' scope x where
  met := hkeeps.met x h.met
  way := hkeeps.way x h.way
  names before := (h.names before).trans (hkeeps.inside x h.way h.met before).symm
  default hsteady := (h.default (hkeeps.steady x h.way hsteady)).trans (hkeeps.default x h.way hsteady).symm

/-- To go into a pair is to learn of the definitions in it. -/
theorem KnowsAround.enter (h : KnowsAround set p scope x) (hmet : p.Met x)
    (hshape : p.tree.shape = t.shape) : KnowsInside set p (t.enter x scope) x where
  met := hmet
  way := h.way
  names before := by
    rw [Scope.namespaceFor?_enter, ← declaredAs?_shape, ← hshape, declaredAs?_shape, h.names, namespaceAt?_eq]
  default hsteady := (Scope.defaultNamespace?_enter t x scope).trans (h.default hsteady)

theorem KnowsInside.held (h : KnowsInside set p scope x) (hwf : p.tree.WellFormed)
    {inner : Scope} (hnames : ∀ before, inner.namespaceFor? before = scope.namespaceFor? before)
    (hdefault : inner.defaultNamespace? = (p.tree.openedAt? set.modules x).or scope.defaultNamespace?)
    (hc : c ∈ (p.tree.get x).held) : KnowsAround set p inner c where
  way := .held h.way h.met hc
  names before := by
    rw [hnames, h.names, hwf.namespaceAround?_of_parent (hwf.mem_held_iff.mp hc)]
  default hsteady := by
    rw [hdefault, h.default (hsteady.of_held hwf hc), hwf.defaultAround?_of_parent (hwf.mem_held_iff.mp hc)]

theorem knowsAround_scopeAround {root : Scope} (hwf : t.WellFormed)
    (hroot : ∀ before, root.namespaceFor? before = t.namespaceOutside? set.modules before)
    (hdefault : root.defaultNamespace? = none) (hshape : p.tree.shape = t.shape)
    (hway : p.tree.Way set.modules p.Met x) : KnowsAround set p (t.scopeAround root x) x where
  way := hway
  names before := by
    rw [Scope.namespaceFor?_scopeAround before hwf (hroot before), ← namespaceAround?_shape,
      ← hshape, namespaceAround?_shape]
  default _ := by
    rw [Scope.defaultNamespace?_scopeAround hwf hroot hdefault, ← defaultAround?_shape, ← hshape,
      defaultAround?_shape]

end Progress

open Progress

/-- The scopes that an action carries know the namespaces where they are to be used. -/
def WalkAction.Informed (set : ModuleSet) (p : Progress) : WalkAction → Prop
  | visit _ context id => KnowsAround set p context.scope id
  | held _ context id => KnowsInside set p context.scope id
  | leave _ outer => ∀ d ∈ outer.getD [], KnowsAround set p d.scope d.definition
  | _ => True

/-- The scopes that are kept for later know the namespaces where they are to be used, and there is
    a way to all that was met. -/
structure Config.Informed (set : ModuleSet) (m : Config) : Prop where
  actions : ∀ action ∈ m.agenda, action.Informed set m.progress
  deferred : ∀ d ∈ m.progress.deferred.getD [], KnowsAround set m.progress d.scope d.definition
  ways : ∀ x, m.progress.Met x → m.progress.tree.Way set.modules m.progress.Met x

variable {set : ModuleSet} {p : Progress}

theorem Config.Informed.nil (hdeferred : ∀ d ∈ p.deferred.getD [], KnowsAround set p d.scope d.definition)
    (hways : ∀ x, p.Met x → p.tree.Way set.modules p.Met x) : Config.Informed set ⟨[], p⟩ :=
  ⟨fun _ h => absurd h not_mem_nil, hdeferred, hways⟩

theorem Config.Informed.append {agenda more : List WalkAction}
    (h : Config.Informed set ⟨agenda, p⟩) (hmore : ∀ action ∈ more, action.Informed set p) :
    Config.Informed set ⟨agenda ++ more, p⟩ :=
  { h with actions := fun action haction =>
      (mem_append.mp haction).elim (h.actions action) (hmore action) }

namespace WalkAction

open PairTree Config

variable {set : ModuleSet} {p p' : Progress} {context : Context} {id : PairId} (n : Nat)

theorem Informed.of_keeps {action : WalkAction} (h : action.Informed set p) (hkeeps : KeepsNamespaces set p p') :
    action.Informed set p' := by
  cases action with
  | visit n context id => exact KnowsAround.of_keeps h hkeeps
  | held n context id => exact KnowsInside.of_keeps h hkeeps
  | leave id outer => exact fun d hd => (h d hd).of_keeps hkeeps
  | _ => trivial

theorem informed_visits {t : PairTree} (h : ∀ c ∈ (t.get id).held, KnowsAround set p context.scope c)
    (n : Nat) : ∀ action ∈ visitAll n (visits t context id), action.Informed set p := by
  intro action haction
  obtain ⟨v, hv, rfl⟩ := mem_map.mp haction
  rcases mem_append.mp hv with hv | hv
  · obtain ⟨c, hc, rfl⟩ := mem_map.mp hv
    exact h c (mem_held_of_mem_children hc)
  · obtain ⟨c, hc, rfl⟩ := mem_map.mp hv
    exact h c (mem_append_right _ hc)

theorem ofEntering_informed (hwf : p.tree.WellFormed) (hdef : (p.tree.kind id).isAliasDefinition)
    (hknows : KnowsAround set (ofEntering n context id p).2 context.scope id) (hdeferred : ∀ d ∈ p.deferred.getD [],
      KnowsAround set (ofEntering n context id p).2 d.scope d.definition) (hways : ∀ x, p.Met x →
      (ofEntering n context id p).2.tree.Way set.modules (ofEntering n context id p).2.Met x) :
    Config.Informed set ⟨(ofEntering n context id p).1, (ofEntering n context id p).2⟩ := by
  unfold ofEntering at *
  by_cases hentered : p.entered.contains id = true
  · simp only [hentered, if_true] at hdeferred hways ⊢
    exact .nil hdeferred hways
  simp only [hentered, Bool.false_eq_true, if_false] at hknows hdeferred hways ⊢
  have hnoted := openDefinition_noted p context.branch id
  generalize p.openDefinition context.branch id = p' at *
  have hinside := hknows.enter (.inr (hnoted.entered_eq ▸ mem_cons_self)) rfl
  have hopened : p'.tree.openedAt? set.modules id = none := by
    refine openedAt?_of_not_scope ?_
    exact (isScope_eq_of_shape hnoted.shape_eq id).trans (not_scope_of_definition hdef)
  refine ⟨fun action haction => ?_, fun d hd => ?_, fun x hx => ?_⟩
  · rcases mem_append.mp haction with haction | haction
    · refine informed_visits (fun c hc => hinside.held ?_ (fun _ => rfl) ?_ hc) n action haction
      · exact hwf.of_shape hnoted.shape_eq
      · rw [hopened]
        rfl
    · rcases mem_pair.mp haction with rfl | rfl
      · trivial
      · exact hdeferred
  · rw [hnoted.deferred_eq] at hd
    cases hd
  · rcases hnoted.alike.met_iff.mp hx with hx | hx
    · exact hways x (.inl hx)
    · rcases mem_cons.mp hx with rfl | hx
      · exact hknows.way
      · exact hways x (.inr hx)

theorem ofEntering_shape (context : Context) (id : PairId) (p : Progress) :
    (ofEntering n context id p).2.tree.shape = p.tree.shape := by
  unfold ofEntering
  split
  · rfl
  · dsimp only
    exact (openDefinition_noted p context.branch id).shape_eq

theorem ofTie_shape (context : Context) (husage : (p.tree.kind id).isAliasUsage) :
    (ofTie n context id p).2.tree.shape = p.tree.shape := by
  rcases ofTie_cases n context husage with ⟨found, q, halike, heq⟩ | ⟨e, q, -, halike, heq⟩
  · rw [heq]
    exact halike.shape_eq
  · rw [heq]
    exact (ofEntering_shape n _ e q).trans halike.shape_eq

/-- A usage that is followed leads to a definition that is entered with the scope around it. -/
theorem ofTie_informed (hwf : p.tree.WellFormed) (husage : (p.tree.kind id).isAliasUsage)
    (hroot : ∀ before, context.root.namespaceFor? before = p.tree.namespaceOutside? set.modules before)
    (hdefault : context.root.defaultNamespace? = none)
    (hfound : ∀ e, context.scope.aliasFor? (p.tree.get id).nameText = some e → (p.tree.kind e).isAliasDefinition ∧
        (ofTie n context id p).2.tree.Way set.modules (ofTie n context id p).2.Met e)
    (hdeferred : ∀ d ∈ p.deferred.getD [], KnowsAround set (ofTie n context id p).2 d.scope d.definition)
    (hways : ∀ x, p.Met x → (ofTie n context id p).2.tree.Way set.modules (ofTie n context id p).2.Met x) :
    Config.Informed set ⟨(ofTie n context id p).1, (ofTie n context id p).2⟩ := by
  rcases ofTie_cases n context husage with ⟨found, q, halike, heq⟩ | ⟨e, q, he, halike, heq⟩
  · rw [heq] at hdeferred hways ⊢
    have hnone : Config.Informed set ⟨[], q⟩ :=
      .nil (fun d hd => hdeferred d (halike.deferred_eq ▸ hd)) fun x hx => hways x (halike.met_iff.mp hx)
    refine hnone.append fun action haction => ?_
    obtain ⟨e, -, rfl⟩ := mem_map.mp haction
    trivial
  · obtain ⟨hdef, hway⟩ := hfound e he
    rw [heq] at hdeferred hway hways ⊢
    refine Informed.append ?_ (forall_mem_singleton.mpr trivial)
    have hshape := halike.shape_eq
    refine ofEntering_informed n (hwf.of_shape hshape)
      ((isAliasDefinition_eq_of_shape hshape e).trans hdef) ?_ (halike.deferred_eq ▸ hdeferred)
      fun x hx => hways x (halike.met_iff.mp hx)
    refine knowsAround_scopeAround (hwf.of_shape hshape) (fun before => ?_) hdefault ?_ hway
    · refine (hroot before).trans ?_
      rw [← namespaceOutside?_shape, ← hshape, namespaceOutside?_shape]
    · exact ofEntering_shape n _ e q

theorem ofVisit_informed {n : Nat} {rest : List WalkAction} (howned : p.tree.Owned set.modules)
    (hroot : ∀ before, context.root.namespaceFor? before = p.tree.namespaceOutside? set.modules before)
    (hdefault : context.root.defaultNamespace? = none)
    (haliases : ∀ name, context.scope.aliasFor? name = p.tree.lexical? set.modules name id)
    (hkeeps : KeepsNamespaces set p (ofVisit n context id p).2)
    (h : Config.Informed set ⟨visit (n + 1) context id :: rest, p⟩) :
    Config.Informed set ⟨(ofVisit n context id p).1, (ofVisit n context id p).2⟩ := by
  have hwf := howned.wellFormed
  have hknows : KnowsAround set p context.scope id := h.actions _ mem_cons_self
  have hdeferred := fun d hd => (h.deferred d hd).of_keeps hkeeps
  have hways := fun x hx => hkeeps.way x (h.ways x hx)
  have hbegin := beginPair_noted p context.branch id
  have hmet : ∀ x, (p.beginPair context.branch id).Met x → x = id ∨ p.Met x := by
    intro x hx
    rcases hbegin.alike.met_iff.mp hx with hx | hx
    · exact (mem_cons.mp hx).imp_right .inl
    · exact .inr (.inr hx)
  by_cases hdef : (p.tree.kind id).isAliasDefinition = true
  · -- A definition is left for later, or entered with the scope that it was come to with.
    simp only [ofVisit, hdef, if_true] at hkeeps hdeferred hways ⊢
    cases hlater : p.deferred with
    | some deferred =>
      simp only [hlater] at hkeeps hdeferred hways ⊢
      refine .nil (fun d hd => ?_) fun x hx => hways x hx
      rcases mem_append.mp hd with hd | hd
      · exact hdeferred d hd
      · obtain rfl := mem_singleton.mp hd
        exact hknows.of_keeps hkeeps
    | none =>
      simp only [hlater] at hkeeps hdeferred hways ⊢
      refine ofEntering_informed n hwf hdef (hknows.of_keeps hkeeps) (fun d hd => ?_) hways
      rw [hlater] at hd
      exact absurd hd not_mem_nil
  rw [Bool.not_eq_true] at hdef
  have hways₁ : ∀ x, (p.beginPair context.branch id).Met x →
      (ofVisit n context id p).2.tree.Way set.modules (ofVisit n context id p).2.Met x := fun x hx =>
    (hmet x hx).elim (· ▸ (hknows.of_keeps hkeeps).way) (hways x)
  have hself : (ofVisit n context id p).2.Met id := .inl (ofVisit_handled n context hdef ▸ mem_cons_self)
  by_cases husage : (p.tree.kind id).isAliasUsage = true
  · have hfound : ∀ e, context.scope.aliasFor? (p.tree.get id).nameText = some e →
        (p.tree.kind e).isAliasDefinition = true ∧
          (ofVisit n context id p).2.tree.Way set.modules (ofVisit n context id p).2.Met e := by
      intro e he
      rw [haliases] at he
      exact ⟨hwf.definition_of_lexical? he, hkeeps.way e (hknows.way.of_lexical? howned he)⟩
    rw [splitScope_of_usage husage] at hbegin
    rw [ofVisit_usage n context husage] at hkeeps hdeferred hways₁ hself hfound ⊢
    generalize p.beginPair context.branch id = p₁ at *
    have hshape : p₁.tree.shape = p.tree.shape := hbegin.shape_eq
    have husage₁ := (isAliasUsage_eq_of_shape hshape id).trans husage
    refine Informed.append ?_ fun action haction => ?_
    · refine ofTie_informed n (hwf.of_shape hshape) husage₁ (fun before => ?_) hdefault (fun e he => ?_)
        (fun d hd => hdeferred d (hbegin.deferred_eq ▸ hd)) hways₁
      · rw [hroot, ← namespaceOutside?_shape, ← hshape, namespaceOutside?_shape]
      · rw [nameText_eq_of_shape hshape] at he
        exact ⟨(isAliasDefinition_eq_of_shape hshape e).trans (hfound e he).1, (hfound e he).2⟩
    · rcases mem_pair.mp haction with rfl | rfl
      · exact (hknows.of_keeps hkeeps).enter hself (ofTie_shape n context husage₁)
      · trivial
  · rw [ofVisit_plain n context hwf hdef (by simpa using husage)] at hkeeps hdeferred hways₁ hself ⊢
    have hnoted := noteKind_noted (p.beginPair context.branch id) context.branch
      ((p.beginPair context.branch id).tree.enter id context.scope) id
    refine ⟨fun action haction => ?_, fun d hd => hdeferred d ?_, fun x hx =>
      hways₁ x (hnoted.alike.met_iff.mp hx)⟩
    · rcases mem_pair.mp haction with rfl | rfl
      · exact (hknows.of_keeps hkeeps).enter hself hnoted.shape_eq
      · trivial
    · exact (hnoted.deferred_eq.trans hbegin.deferred_eq) ▸ hd

end WalkAction

end PairMarkup
