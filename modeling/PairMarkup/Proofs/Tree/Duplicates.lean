import PairMarkup.Proofs.Tree.Lexical
import PairMarkup.Resolution.Basic

namespace PairMarkup

open List

/-- The codes of the findings about names that are defined more than once. -/
def Code.IsAboutDuplicates (code : Code) : Prop :=
  code = .duplicateNamespaceDefinition ∨ code = .duplicateAliasDefName

instance (code : Code) : Decidable code.IsAboutDuplicates := inferInstanceAs (Decidable (_ ∨ _))

/-- What a finding about the name of a pair tells of the pair. -/
def Pair.label (pair : Pair) : String × String × Nat × Span :=
  (pair.nameText, pair.file, pair.fileIndex, pair.nameSpan)

namespace PairTree

variable {t t' : PairTree} {x y d : PairId} {code : Code} {ids : List PairId} {x' : PairId}

/-- The definitions in a pair whose duplicates are reported with the code. -/
def declarations (t : PairTree) : Code → PairId → List PairId
  | .duplicateNamespaceDefinition, x => t.namespaceDefinitions x
  | .duplicateAliasDefName, x => t.hoisted x
  | _, _ => []

/-- Those of them that have one name. -/
def namesakes (t : PairTree) (code : Code) (x : PairId) (name : String) : List PairId :=
  (t.declarations code x).filter fun d => (t.get d).nameText = name

/-- The finding that the name of a definition is taken. -/
def noticeOf (t : PairTree) (code : Code) (d : PairId) : Finding where
  subject := d
  diagnostic := .of code [(t.get d).nameText] (t.get d).file (t.get d).fileIndex (t.get d).nameSpan .resolve

def noticesOf (t : PairTree) (code : Code) (x : PairId) : List Finding :=
  (t.repeated (t.declarations code x)).map (t.noticeOf code)

/-- All findings about the names that a pair brings in. -/
def noticesAt (t : PairTree) (x : PairId) : List Finding :=
  t.noticesOf .duplicateNamespaceDefinition x ++ t.noticesOf .duplicateAliasDefName x

theorem noticeOf_eq_of_label (h : (t'.get d).label = (t.get d).label) (code : Code) :
    t'.noticeOf code d = t.noticeOf code d := by
  simp only [Pair.label, Prod.mk.injEq] at h
  simp only [noticeOf, h]

theorem repeated_go_sublist (t : PairTree) (seen : List String) (ids : List PairId) :
    (repeated.go t seen ids).Sublist ids := by
  fun_induction repeated.go t seen ids with
  | case1 => exact .slnil
  | case2 seen id ids name hseen ih => exact ih.cons_cons id
  | case3 seen id ids name hseen ih => exact ih.cons id

theorem mem_of_mem_repeated (h : d ∈ t.repeated ids) : d ∈ ids := (repeated_go_sublist t [] ids).subset h

theorem repeated_go_congr (h : ∀ d ∈ ids, (t'.get d).nameText = (t.get d).nameText) (seen : List String) :
    repeated.go t' seen ids = repeated.go t seen ids := by
  induction ids generalizing seen with
  | nil => rfl
  | cons id ids ih =>
    have hrest := ih fun d hd => h d (mem_cons_of_mem _ hd)
    simp only [repeated.go, h id mem_cons_self, hrest]

theorem repeated_congr (h : ∀ d ∈ ids, (t'.get d).nameText = (t.get d).nameText) :
    t'.repeated ids = t.repeated ids := repeated_go_congr h []

theorem filter_repeated_go (t : PairTree) (name : String) (seen : List String) (ids : List PairId) :
    (repeated.go t seen ids).filter (fun d => (t.get d).nameText = name) =
      if name ∈ seen then ids.filter fun d => (t.get d).nameText = name
      else (ids.filter fun d => (t.get d).nameText = name).tail := by
  fun_induction repeated.go t seen ids with
  | case1 => simp
  | case2 seen id ids first hseen ih =>
    have hmem : first ∈ seen := by simpa using hseen
    by_cases hname : first = name
    · have hid : (t.get id).nameText = name := hname
      rw [if_pos (hname ▸ hmem)] at ih ⊢
      rw [filter_cons_of_pos (by simpa using hid), filter_cons_of_pos (by simpa using hid), ih]
    · have hid : (t.get id).nameText ≠ name := hname
      rw [filter_cons_of_neg (by simpa using hid), filter_cons_of_neg (by simpa using hid), ih]
  | case3 seen id ids first hseen ih =>
    have hmem : first ∉ seen := by simpa using hseen
    rw [ih]
    by_cases hname : first = name
    · have hid : (t.get id).nameText = name := hname
      rw [if_pos (hname ▸ mem_cons_self), if_neg (hname ▸ hmem), filter_cons_of_pos (by simpa using hid), tail_cons]
    · have hid : (t.get id).nameText ≠ name := hname
      rw [filter_cons_of_neg (by simpa using hid)]
      simp only [mem_cons, Ne.symm hname, false_or]

/-- Of the definitions of one name all but the first are repeated. -/
theorem filter_repeated (t : PairTree) (name : String) (ids : List PairId) :
    (t.repeated ids).filter (fun d => (t.get d).nameText = name) =
      (ids.filter fun d => (t.get d).nameText = name).tail := by
  rw [repeated, filter_repeated_go, if_neg not_mem_nil]

theorem noticesOf_congr (hdeclared : t'.declarations code x' = t.declarations code x)
    (hlabel : ∀ d ∈ t.declarations code x, (t'.get d).label = (t.get d).label) :
    t'.noticesOf code x' = t.noticesOf code x := by
  have hname : ∀ d ∈ t.declarations code x, (t'.get d).nameText = (t.get d).nameText := fun d hd =>
    congrArg Prod.fst (hlabel d hd)
  rw [noticesOf, hdeclared, repeated_congr hname, noticesOf]
  exact map_congr_left fun d hd => noticeOf_eq_of_label (hlabel d (mem_of_mem_repeated hd)) code

theorem noticesAt_congr (hnamespaces : t'.namespaceDefinitions x' = t.namespaceDefinitions x)
    (haliases : t'.hoisted x' = t.hoisted x)
    (hlabel : ∀ code, ∀ d ∈ t.declarations code x, (t'.get d).label = (t.get d).label) :
    t'.noticesAt x' = t.noticesAt x := by
  have hnotices : ∀ code, t'.noticesOf code x' = t.noticesOf code x := by
    intro code
    refine noticesOf_congr ?_ (hlabel code)
    unfold declarations
    split
    · exact hnamespaces
    · exact haliases
    · rfl
  rw [noticesAt, hnotices, hnotices, noticesAt]

theorem declares_iff : t.declares x ↔ (t.kind x).isScopeOwner ∨ t.namespaceDefinitions x ≠ [] := by
  simp [declares]

theorem declarations_eq_nil (h : t.declares x = false) (code : Code) : t.declarations code x = [] := by
  simp only [declares, Bool.or_eq_false_iff, Bool.not_eq_false', List.isEmpty_iff] at h
  unfold declarations
  split
  · exact h.2
  · rw [hoisted, h.1]
    rfl
  · rfl

theorem Exposed.owner_unique (hwf : t.WellFormed) (hx : (t.kind x).isScopeOwner)
    (hy : (t.kind y).isScopeOwner) (h : t.Exposed x d) (h' : t.Exposed y d) : x = y := by
  have hparent : ∀ {p q c}, c ∈ t.children p → c ∈ t.children q → p = q := fun hp hq =>
    Option.some.inj ((hwf.mem_held_iff.mp (mem_held_of_mem_children hp)).symm.trans
      (hwf.mem_held_iff.mp (mem_held_of_mem_children hq)))
  induction h with
  | child hc =>
    cases h' with
    | child hc' => exact hparent hc hc'
    | deeper _ hnot hc' =>
      rw [← hparent hc hc', hx] at hnot
      cases hnot
  | deeper _ hnot hc ih =>
    cases h' with
    | child hc' =>
      rw [hparent hc hc', hy] at hnot
      cases hnot
    | deeper hexposed _ hc' => exact ih (hparent hc hc' ▸ hexposed)

theorem WellFormed.declaration_unique (hwf : t.WellFormed) (hx : d ∈ t.declarations code x)
    (hy : d ∈ t.declarations code y) : x = y := by
  unfold declarations at hx hy
  split at hx
  · have hparent := fun p (h : d ∈ t.namespaceDefinitions p) =>
      hwf.mem_held_iff.mp (mem_held_of_mem_children (mem_of_mem_filter h))
    exact Option.some.inj ((hparent x hx).symm.trans (hparent y hy))
  · have hhoists := hwf.mem_hoisted_iff.mp hx
    have hhoists' := hwf.mem_hoisted_iff.mp hy
    exact hhoists.exposed.owner_unique hwf hhoists.owner_kind hhoists'.owner_kind hhoists'.exposed
  · cases hx

/-- Those of the findings about `y` that are about definitions of one name in `x`. -/
theorem WellFormed.filter_noticesAt (hwf : t.WellFormed) (hcode : code.IsAboutDuplicates) (x y : PairId)
    (name : String) :
    (t.noticesAt y).filter (fun f => f.diagnostic.code = code ∧ f.subject ∈ t.namesakes code x name) =
      if y = x then (t.namesakes code x name).tail.map (t.noticeOf code) else [] := by
  have hother : ∀ {c}, c ≠ code →
      (t.noticesOf c y).filter (fun f => f.diagnostic.code = code ∧ f.subject ∈ t.namesakes code x name) = [] := by
    intro c hne
    rw [noticesOf, filter_map, map_eq_nil_iff, filter_eq_nil_iff]
    intro d _ hd
    exact hne (of_decide_eq_true hd).1
  have hsame : (t.noticesOf code y).filter (fun f => f.diagnostic.code = code ∧ f.subject ∈ t.namesakes code x name) =
      if y = x then (t.namesakes code x name).tail.map (t.noticeOf code) else [] := by
    rw [noticesOf, filter_map]
    split
    · rename_i heq
      subst heq
      rw [namesakes, ← filter_repeated]
      refine congrArg (List.map _) (filter_congr fun d hd => ?_)
      have hmem := mem_of_mem_repeated hd
      simp [Function.comp, noticeOf, Diagnostic.of, mem_filter, hmem]
    · rename_i hne
      rw [map_eq_nil_iff, filter_eq_nil_iff]
      intro d hd hsel
      have hmem : d ∈ t.namesakes code x name := (of_decide_eq_true hsel).2
      exact hne (hwf.declaration_unique (mem_of_mem_repeated hd) (mem_of_mem_filter hmem))
  rw [noticesAt, filter_append]
  rcases hcode with rfl | rfl
  · rw [hsame, hother (by decide), append_nil]
  · rw [hsame, hother (by decide), nil_append]

end PairTree

end PairMarkup
