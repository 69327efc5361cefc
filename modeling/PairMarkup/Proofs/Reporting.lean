import PairMarkup.Session

namespace PairMarkup

open List

namespace Collection

/-- Takes diagnostics one after the other until one is refused. -/
def receiveAll (c : Collection) : List Diagnostic → Except Stopped Collection
  | [] => .ok c
  | d :: ds =>
    match c.receive d with
    | .ok received => received.receiveAll ds
    | .error failure => .error ⟨failure, c.entries⟩

theorem receiveAll_append (c : Collection) (ds es : List Diagnostic) :
    c.receiveAll (ds ++ es) = c.receiveAll ds >>= (·.receiveAll es) := by
  induction ds generalizing c with
  | nil => rfl
  | cons d ds ih =>
    rw [cons_append, receiveAll, receiveAll]
    cases c.receive d with
    | error failure => rfl
    | ok received => exact ih received

end Collection

/-- States that know what was found. -/
class Logs (σ : Type) where
  log : σ → List Diagnostic

instance : Logs Builder := ⟨Builder.log⟩

instance : Logs (PairId × Builder) := ⟨fun s => s.2.log⟩

instance : Logs (Builder × Builder.LineState) := ⟨fun s => s.1.log⟩

instance : Logs Progress := ⟨fun p => p.findings.map (·.diagnostic)⟩

namespace Reporting

open Logs

variable {σ τ α : Type} [Logs σ] [Logs τ]

theorem map_apply {β : Type} (x : Reporting α) (f : α → β) (c : Collection) :
    (x >>= fun a => pure (f a)) c = x c >>= fun s => .ok (f s.1, s.2) :=
  rfl

/-- All that was found when the work has ended. -/
def found : Except Halt σ → List Diagnostic
  | .ok s => log s
  | .error halt => halt.log

/-- The work hands over, in order, what the other work adds to its log, and ends as that does unless something is
    refused. -/
def Delivers (x : Reporting σ) (before : List Diagnostic) (y : Except Halt σ) : Prop :=
  ∃ new, found y = before ++ new ∧ ∀ c, x c = c.receiveAll new >>= settle y

namespace Delivers

variable {before : List Diagnostic} {x : Reporting σ} {y : Except Halt σ} {s : σ}

theorem settle (h : found y = before) : Delivers (settle y) before y := ⟨[], by rw [h, append_nil], fun _ => rfl⟩

theorem done (h : log s = before) : Delivers (pure s) before (.ok s) := .settle h

theorem report {d : Diagnostic} (h : log s = before ++ [d]) :
    Delivers (do Reporting.report d; return s) before (.ok s) := by
  refine ⟨[d], h, fun c => ?_⟩
  change Reporting.report d c >>= _ = _
  rw [Collection.receiveAll, Reporting.report]
  cases c.receive d with
  | error failure => rfl
  | ok received => rfl

theorem bind {g : σ → Reporting τ} {k : σ → Except Halt τ} (h : Delivers x before y)
    (hnext : ∀ s, y = .ok s → Delivers (g s) (log s) (k s)) : Delivers (x >>= g) before (y >>= k) := by
  obtain ⟨new, hfound, hx⟩ := h
  cases y with
  | error halt =>
    refine ⟨new, hfound, fun c => ?_⟩
    change x c >>= _ = _
    rw [hx]
    cases c.receiveAll new with
    | error stopped => rfl
    | ok received => rfl
  | ok s =>
    obtain ⟨more, hmore, hg⟩ := hnext s rfl
    refine ⟨new ++ more, ?_, fun c => ?_⟩
    · change found (k s) = _
      rw [hmore, show log s = before ++ new from hfound, append_assoc]
    · change x c >>= _ = _
      rw [hx, Collection.receiveAll_append]
      cases c.receiveAll new with
      | error stopped => rfl
      | ok received => exact hg received

theorem next {g : σ → Reporting τ} {z : Except Halt τ} (h : Delivers x before (.ok s))
    (hnext : Delivers (g s) (log s) z) : Delivers (x >>= g) before z :=
  h.bind (k := fun _ => z) fun _ hs => Except.ok.inj hs ▸ hnext

theorem foldlM {step : σ → α → Reporting σ} {f : σ → α → Except Halt σ}
    (h : ∀ s a, Delivers (step s a) (log s) (f s a)) (as : List α) (s : σ) :
    Delivers (as.foldlM step s) (log s) (as.foldlM f s) := by
  induction as generalizing s with
  | nil => exact .settle rfl
  | cons a as ih => exact (h s a).bind fun s' _ => ih s'

theorem foldl {step : σ → α → Reporting σ} {f : σ → α → σ} (h : ∀ s a, Delivers (step s a) (log s) (.ok (f s a)))
    (as : List α) (s : σ) : Delivers (as.foldlM step s) (log s) (.ok (as.foldl f s)) := by
  induction as generalizing s with
  | nil => exact .settle rfl
  | cons a as ih => exact (h s a).next (ih (f s a))

end Delivers

section

variable (site : Site) (b : Builder) (parent child : PairId) (position : Position)

theorem reportNote_delivers (note : Note) : Delivers (reportNote site b note) b.log (.ok (b.report site note)) :=
  .report rfl

theorem reportNotes_delivers (notes : List Note) :
    Delivers (reportNotes site b notes) b.log (.ok (b.reportAll site notes)) :=
  .foldl (reportNote_delivers site) notes b

theorem found_append : found (b.append parent child) = b.log := by
  unfold Builder.append
  split <;> rfl

theorem found_redirect : found (b.redirect site parent child) = b.log := by
  unfold Builder.redirect Builder.implicitDocument
  dsimp only
  split
  · split
    · rfl
    · have happend := found_append (b.add (b.implicitPair site (b.tree.get child).span)).2 site.root
        (b.add (b.implicitPair site (b.tree.get child).span)).1
      generalize Builder.append _ _ _ = appended at happend ⊢
      cases appended <;> exact happend
  · rfl

theorem addComment_delivers (comment : Comment) :
    Delivers (addComment site parent b comment) b.log (b.addComment site parent comment) :=
  (reportNotes_delivers site b comment.notes).next (.settle (found_append ..))

theorem place_delivers :
    Delivers (place site b parent child position) b.log (b.place site parent child position) := by
  unfold place
  cases happend : b.tree.append parent child with
  | ok tree =>
    refine .settle ?_
    simp only [Builder.place, happend]
    rfl
  | error fault =>
    cases fault with
    | namespaceDefinitionOutOfOrder name line column =>
      refine .settle ?_
      simp only [Builder.place, happend]
      rfl
    | childrenNotAllowed kind line column =>
      simp only [Builder.place, happend]
      exact (reportNote_delivers site b _).next (.settle (found_append ..))

theorem attach_delivers :
    Delivers (attach site b parent child position) b.log (b.attach site parent child position) := by
  refine Delivers.bind (.settle (found_redirect site b parent child)) fun s _ => ?_
  exact place_delivers site s.2 s.1 child position

theorem log_addReferences (owner : PairId) (parts : List Segment) :
    (b.addReferences site owner parts).2.log = b.log := by
  fun_induction Builder.addReferences b site owner parts with
  | case1 b => rfl
  | case2 b content span segments ih => exact ih
  | case3 b found segments id b' hadd ids last hrest ih =>
    rw [hrest] at ih
    exact ih.trans (congrArg (fun s => s.2.log) hadd).symm

theorem log_addTexts (parts : List Segment) (references : List PairId) :
    (b.addTexts site parts references).2.log = b.log := by
  fun_induction Builder.addTexts b site parts references with
  | case1 b references => rfl
  | case2 b content span segments references pair id b' hadd ids last hrest ih =>
    rw [hrest] at ih
    exact ih.trans (congrArg (fun s => s.2.log) hadd).symm
  | case3 b found segments references ids last hrest ih =>
    rw [hrest] at ih
    exact ih

theorem log_setValue (owner : PairId) (value : Value) : (b.setValue site owner value).log = b.log := by
  cases value with
  | text content kind => rfl
  | bare content => rfl
  | reference found => rfl
  | segments parts ne_nil => exact (log_addTexts ..).trans (log_addReferences ..)

theorem addPair_delivers (inGroup : Bool) (item : PairItem) :
    Delivers (addPair site b parent inGroup item) b.log (b.addPair site parent inGroup item) := by
  refine (attach_delivers site _ parent _ item.head.span.stop).bind fun b₁ _ => ?_
  refine (reportNotes_delivers site b₁ item.notes).next (.settle ?_)
  change Builder.log (item.value.elim _ _) = _
  cases item.value with
  | none => rfl
  | some value => exact log_setValue ..

theorem addItem_delivers (block : PairId) (s : Builder × Builder.LineState) (item : Item) :
    Delivers (addItem site block s item) s.1.log (s.1.addItem site block s.2 item) := by
  obtain ⟨b, state⟩ := s
  cases item with
  | note note => exact (reportNote_delivers site b note).next (.settle rfl)
  | comment comment => exact (addComment_delivers site b _ comment).bind fun b' _ => .settle rfl
  | pair item => exact (addPair_delivers site b _ _ item).bind fun s _ => .settle rfl
  | separator => exact .settle rfl
  | openGroup => exact .settle rfl
  | closeGroup => exact .settle rfl

theorem lineBlock_delivers (depth : Nat) (lead : Span) :
    Delivers (lineBlock site b depth lead) b.log (.ok (b.lineBlock site depth lead)) := by
  unfold lineBlock Builder.lineBlock
  dsimp only
  split
  · exact (reportNote_delivers site b _).next (.settle rfl)
  · exact .settle rfl

theorem addLine_delivers (line : Line) : Delivers (addLine site b line) b.log (b.addLine site line) := by
  cases line with
  | comments depth comments => exact .foldlM (fun b comment => addComment_delivers site b _ comment) comments b
  | rejected note => exact reportNote_delivers site b note
  | content depth lead items =>
    refine (lineBlock_delivers site b depth lead).next ?_
    exact (Delivers.foldlM (addItem_delivers site _) items _).bind fun s _ => .settle rfl

end

section

variable (branch : Option Branch) (p : Progress) (id : PairId)

theorem reportAbout_delivers (code : Code) (arguments : List String) (subject : PairId) (span : Span) :
    Delivers (reportAbout branch p code arguments subject span) (log p)
      (.ok (p.report branch code arguments subject span)) := by
  refine .report ?_
  cases branch with
  | none => exact map_append
  | some branch => exact map_append

theorem reportName_delivers (code : Code) (subject : PairId) :
    Delivers (reportName branch p code subject) (log p) (.ok (p.reportName branch code subject)) :=
  reportAbout_delivers ..

theorem announce_delivers : Delivers (announce branch p id) (log p) (.ok (p.announce branch id)) := by
  unfold announce Progress.announce
  split
  · exact .done rfl
  · refine (Delivers.foldl (fun p d => reportName_delivers branch p _ d) _ p).next ?_
    exact (Delivers.foldl (fun p d => reportName_delivers branch p _ d) _ _).next (.done rfl)

theorem bindNamespace_delivers (scope : Scope) :
    Delivers (bindNamespace branch p scope id) (log p) (.ok (p.bindNamespace branch scope id)) := by
  unfold bindNamespace Progress.bindNamespace
  dsimp only
  cases (p.tree.get id).nsPrefix with
  | none => exact .done rfl
  | some before =>
    cases hfound : scope.namespaceFor? before with
    | none =>
      simp only [Option.filter, hfound]
      exact reportAbout_delivers ..
    | some uri =>
      simp only [Option.filter, hfound]
      exact .done rfl

theorem bindParameter_delivers : Delivers (bindParameter branch p id) (log p) (.ok (p.bindParameter branch id)) := by
  unfold bindParameter Progress.bindParameter
  cases p.tree.enclosingDefinition? id with
  | none => exact reportName_delivers ..
  | some definition => exact .done rfl

theorem checkArgumentPlace_delivers :
    Delivers (checkArgumentPlace branch p id) (log p) (.ok (p.checkArgumentPlace branch id)) := by
  unfold checkArgumentPlace Progress.checkArgumentPlace
  split
  · exact .done rfl
  · exact reportName_delivers ..

theorem checkRoots_delivers : Delivers (checkRoots branch p id) (log p) (.ok (p.checkRoots branch id)) := by
  unfold checkRoots
  dsimp only
  split
  · next second _ hformat hroots =>
    simp only [Progress.checkRoots, hformat, hroots]
    exact reportAbout_delivers ..
  · next hother =>
    have hsame : p.checkRoots branch id = p := by
      unfold Progress.checkRoots
      dsimp only
      split
      · next hformat hroots => exact absurd hroots (hother _ _ _ hformat)
      · rfl
    rw [hsame]
    exact .done rfl

theorem checkArguments_delivers (usage definition : PairId) :
    Delivers (checkArguments branch p usage definition) (log p) (.ok (p.checkArguments branch usage definition)) := by
  unfold checkArguments Progress.checkArguments
  refine .foldl (fun p c => ?_) _ p
  exact reportAbout_delivers ..

theorem log_setTree (tree : PairTree) : log (p.setTree tree) = log p :=
  congrArg (map _) (rfl : (p.setTree tree).findings = p.findings)

theorem markCircular_delivers : Delivers (markCircular branch p id) (log p) (.ok (p.markCircular branch id)) := by
  unfold markCircular Progress.markCircular
  cases (p.tree.get id).kind with
  | aliasDefinition info =>
    dsimp only
    split
    · exact .done rfl
    · rw [← log_setTree p (p.tree.modify id (Pair.mapInfo ({ · with isCircular := true })))]
      exact reportName_delivers ..
  | _ => exact .done rfl

theorem recordSignature_delivers :
    Delivers (recordSignature branch p id) (log p) (.ok (p.recordSignature branch id)) := by
  unfold recordSignature Progress.recordSignature
  have hlog : log (p.withSignature id) = log p := log_setTree ..
  rw [← hlog]
  cases p.tree.conflictingDefault? id with
  | some parameter => exact reportAbout_delivers ..
  | none => exact .done rfl

theorem openDefinition_delivers : Delivers (openDefinition branch p id) (log p) (.ok (p.openDefinition branch id)) :=
  (recordSignature_delivers branch { p with entered := id :: p.entered, deferred := some [] } id).next
    (announce_delivers branch _ id)

theorem announceAround_delivers (definition : PairId) :
    Delivers (announceAround p branch definition) (log p) (.ok (p.announceAround branch definition)) := by
  unfold announceAround Progress.announceAround
  cases p.tree.parent? definition with
  | none => exact .done rfl
  | some parent => exact .foldl (announce_delivers branch) _ p

theorem beginPair_delivers : Delivers (beginPair branch p id) (log p) (.ok (p.beginPair branch id)) := by
  have hlog : log ({ p with handled := id :: p.handled }.splitScope id) = log p := log_setTree ..
  rw [← hlog]
  exact announce_delivers ..

theorem noteKind_delivers (inner : Scope) :
    Delivers (noteKind id p branch inner) (log p) (.ok (p.noteKind branch inner id)) := by
  unfold noteKind Progress.noteKind
  cases p.tree.kind id with
  | element | attr | scope => exact bindNamespace_delivers ..
  | parameter => exact bindParameter_delivers ..
  | argument => exact checkArgumentPlace_delivers ..
  | document => exact checkRoots_delivers ..
  | _ => exact .done rfl

theorem findings_settleValueKind : (p.settleValueKind id).findings = p.findings := by
  unfold Progress.settleValueKind
  dsimp only
  split
  all_goals
    split
    all_goals rfl

end

section

variable {walk : Walk} {walk' : PairMarkup.Walk}
  (hwalk : ∀ context id p, Delivers (walk context id p) (log p) (.ok (walk' context id p)))
  (context : Context) (id : PairId) (p : Progress)

include hwalk

theorem walkHeld_delivers : Delivers (walkHeld walk context id p) (log p) (.ok (p.walkHeld walk' context id)) :=
  .foldl (fun p (visit : Context × PairId) => hwalk visit.1 visit.2 p) _ p

theorem enterDefinition_delivers :
    Delivers (enterDefinition walk context id p) (log p) (.ok (p.enterDefinition walk' context id)) := by
  unfold enterDefinition Progress.enterDefinition
  split
  · exact .done rfl
  · refine (openDefinition_delivers context.branch p id).next ?_
    generalize p.openDefinition context.branch id = opened
    dsimp only
    refine (walkHeld_delivers hwalk (context.inside opened.tree id) id opened).next ?_
    generalize opened.walkHeld walk' (context.inside opened.tree id) id = held
    refine (Delivers.foldl (fun p d => hwalk (context.resume d) d.definition p) (held.deferred.getD [])
      { held with deferred := none }).next (.done ?_)
    exact congrArg (map _) (findings_settleValueKind ..)

theorem bindUsage_delivers : Delivers (bindUsage walk context id p) (log p) (.ok (p.bindUsage walk' context id)) := by
  unfold bindUsage Progress.bindUsage
  cases context.scope.aliasFor? (p.tree.get id).nameText with
  | none => exact reportName_delivers ..
  | some definition =>
    have hlog : log (p.tie id definition) = log p := log_setTree ..
    rw [← hlog]
    dsimp only
    generalize p.tie id definition = p
    split
    · exact (Delivers.foldl (markCircular_delivers context.branch) _ p).next (checkArguments_delivers ..)
    · split
      · exact checkArguments_delivers ..
      · refine (announceAround_delivers context.branch p definition).next ?_
        exact (enterDefinition_delivers hwalk _ definition _).next (checkArguments_delivers ..)

theorem handle_delivers : Delivers (handle walk context id p) (log p) (.ok (p.handle walk' context id)) := by
  unfold handle Progress.handle
  refine (beginPair_delivers context.branch p id).next ?_
  generalize p.beginPair context.branch id = p
  dsimp only
  have hheld (inner : Scope) (q : Progress) : Delivers (do
      let q ← walkHeld walk { context with scope := q.tree.openScope id inner } id q
      return q.settleValueKind id) (log q)
      (.ok ((q.walkHeld walk' { context with scope := q.tree.openScope id inner } id).settleValueKind id)) :=
    (walkHeld_delivers hwalk _ id q).next (.done (congrArg (map _) (findings_settleValueKind ..)))
  split
  · exact (bindUsage_delivers hwalk context id p).next (hheld ..)
  · exact (noteKind_delivers context.branch p id _).next (hheld ..)

theorem step_delivers : Delivers (step walk context id p) (log p) (.ok (p.step walk' context id)) := by
  unfold step Progress.step
  split
  · cases p.deferred with
    | some deferred => exact .done rfl
    | none => exact enterDefinition_delivers hwalk ..
  · exact handle_delivers hwalk ..

end

theorem walkTo_delivers (n : Nat) (context : Context) (id : PairId) (p : Progress) :
    Delivers (walkTo n context id p) (log p) (.ok (p.walkTo n context id)) := by
  induction n generalizing context id p with
  | zero => exact .done rfl
  | succ n ih => exact step_delivers ih context id p

theorem resolve_eq (set : ModuleSet) (c : Collection) : resolve set c =
    c.receiveAll (set.resolve.2.map (·.diagnostic)) >>= fun c => .ok (set.resolve.1, c) := by
  have hdelivers : Delivers (do
      let p ← set.modules.foldlM (announce none) (.initial set)
      set.modules.foldlM
        (fun p id => walkTo (2 * set.tree.size + 2) ⟨set.globalScope, set.globalScope, [], none⟩ id p) p) []
      (.ok (.run set)) := by
    refine (Delivers.foldl (announce_delivers none) set.modules (.initial set)).next ?_
    exact .foldl (fun p id => walkTo_delivers _ _ id p) set.modules _
  obtain ⟨new, hnew, hrun⟩ := hdelivers
  have hnew : set.resolve.2.map (·.diagnostic) = new := hnew
  unfold resolve
  rw [← bind_assoc, hnew]
  rw [map_apply, hrun]
  cases c.receiveAll new with
  | error stopped => rfl
  | ok received => rfl

end Reporting

namespace Session

/-- What becomes of work whose diagnostics are handed over. -/
def accept (s : Session) (work : Logged ModuleSet) : Except Stopped Session :=
  match s.collection.receiveAll work.log with
  | .error stopped => .error stopped
  | .ok collection =>
    match work.result with
    | .ok set => .ok ⟨set, collection⟩
    | .error fault => .error ⟨.structural fault, collection.entries⟩

theorem parse_eq_accept (s : Session) (source : Source) :
    s.parse source = s.accept (s.set.parse source.name source.format source.text) := by
  simp only [parse, Reporting.parse, ModuleSet.parse, accept]
  generalize (s.set.addModule source.name source.format).1 = root
  generalize (s.set.addModule source.name source.format).2 = set
  generalize Site.mk root source.format source.name (set.tree.get root).fileIndex = site
  obtain ⟨new, hnew, hrun⟩ :=
    Reporting.Delivers.foldlM (Reporting.addLine_delivers site) (Line.ofText source.text) ⟨set.tree, [root], []⟩
  rw [Reporting.map_apply, hrun]
  generalize (Line.ofText source.text).foldlM (Builder.addLine site) ⟨set.tree, [root], []⟩ = built at hnew ⊢
  cases built with
  | ok b =>
    have hlog : b.log = new := hnew
    rw [← hlog]
    cases s.collection.receiveAll b.log with
    | error stopped => rfl
    | ok collection => rfl
  | error halt =>
    have hlog : halt.log = new := hnew
    rw [← hlog]
    cases s.collection.receiveAll halt.log with
    | error stopped => rfl
    | ok collection => rfl

theorem resolve_eq_accept (s : Session) :
    s.resolve = s.accept ⟨s.set.resolve.2.map (·.diagnostic), .ok s.set.resolve.1⟩ := by
  simp only [resolve, Reporting.resolve_eq, accept]
  cases s.collection.receiveAll _ with
  | error stopped => rfl
  | ok collection => rfl

end Session

end PairMarkup
