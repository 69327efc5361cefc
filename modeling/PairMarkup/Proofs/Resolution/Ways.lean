import PairMarkup.Proofs.Resolution.Keeping
import PairMarkup.Proofs.Tree.Namespace

namespace PairMarkup

open List

namespace PairTree

/-- The walk can come to the pair by way of pairs that were met. -/
inductive Way (t : PairTree) (modules : List PairId) (met : PairId → Prop) : PairId → Prop
  | module {m : PairId} : m ∈ modules → Way t modules met m
  | held {q c : PairId} : Way t modules met q → met q → c ∈ (t.get q).held → Way t modules met c
  | hoisted {owner d : PairId} : Way t modules met owner → t.Hoists owner d → Way t modules met d

namespace Way

variable {t t' : PairTree} {modules : List PairId} {met met' : PairId → Prop} {x s : PairId}

theorem transport (h : t.Way modules met x) (hmet : ∀ q, met q → met' q)
    (hheld : ∀ q, t.Way modules met q → met q → (t'.get q).held = (t.get q).held)
    (hhoists : ∀ owner d, t.Hoists owner d → t'.Hoists owner d) : t'.Way modules met' x := by
  induction h with
  | module hm => exact .module hm
  | held hway hq hc ih => exact .held ih (hmet _ hq) (hheld _ hway hq ▸ hc)
  | hoisted _ hd ih => exact .hoisted ih (hhoists _ _ hd)

variable (howned : t.Owned modules)

include howned

theorem lt_size (h : t.Way modules met x) : x < t.size := by
  cases h with
  | module hm => exact howned.module_lt_size hm
  | held _ _ hc => exact howned.wellFormed.held_lt_size hc
  | hoisted _ hd => exact lt_size_of_definition hd.kind

theorem owner (h : t.Way modules met x) {a : PairId} (ha : a ∈ t.ancestors x)
    (hkind : (t.kind a).isScopeOwner) : t.Way modules met a := by
  have hwf := howned.wellFormed
  have hup : ∀ {c q}, c ∈ (t.get q).held → t.ancestors c = q :: t.ancestors q := fun hc =>
    hwf.ancestors_eq_cons (hwf.mem_held_iff.mp hc)
  induction h with
  | module hm =>
    rw [ancestors_eq_nil (howned.module_root hm)] at ha
    cases ha
  | held hq _ hc ih =>
    rw [hup hc] at ha
    rcases mem_cons.mp ha with rfl | ha
    · exact hq
    · exact ih ha
  | @hoisted owner d howner hd ih =>
    have hexposed := hd.exposed
    clear hd
    induction hexposed with
    | child hc =>
      rw [hup (mem_held_of_mem_children hc)] at ha
      rcases mem_cons.mp ha with rfl | ha
      · exact howner
      · exact ih ha
    | deeper _ hx hc ihx =>
      rw [hup (mem_held_of_mem_children hc)] at ha
      rcases mem_cons.mp ha with rfl | ha
      · rw [hkind] at hx
        cases hx
      · exact ihx ha

theorem of_lexical? (h : t.Way modules met x) {name : String} {e : PairId}
    (he : t.lexical? modules name x = some e) : t.Way modules met e := by
  obtain ⟨owner, howner, hhoists⟩ := howned.wellFormed.hoists_of_lexical? he
  refine .hoisted ?_ hhoists
  rcases howner with howner | howner
  · exact h.owner howned howner hhoists.owner_kind
  · exact .module howner

/-- Only definitions are met before something around them. -/
theorem definition_between (h : t.Way modules met x) (hs : s ∈ t.ancestors x) (hunmet : ¬ met s) :
    ∃ d ∈ x :: t.ancestors x, (t.kind d).isAliasDefinition ∧ s ∈ t.ancestors d := by
  have hwf := howned.wellFormed
  induction h with
  | module hm =>
    rw [ancestors_eq_nil (howned.module_root hm)] at hs
    cases hs
  | @held q c _ hq hc ih =>
    rw [hwf.ancestors_eq_cons (hwf.mem_held_iff.mp hc)] at hs ⊢
    rcases mem_cons.mp hs with rfl | hs
    · exact absurd hq hunmet
    · obtain ⟨d, hd, hdef⟩ := ih hs
      exact ⟨d, mem_cons_of_mem _ hd, hdef⟩
  | hoisted _ hd => exact ⟨_, mem_cons_self, hd.kind, hs⟩

/-- The value of a pair is not looked into before the pair is met. -/
theorem offItems (h : t.Way modules met x) (hunmet : ¬ met s) : t.OffItems s x := by
  have hwf := howned.wellFormed
  have hup : ∀ {c q}, c ∈ (t.get q).held → t.OffItems s q → c ∉ (t.get s).items.getD [] → t.OffItems s c := by
    intro c q hc hq hnot y hy
    rw [hwf.ancestors_eq_cons (hwf.mem_held_iff.mp hc)] at hy
    rcases mem_cons.mp hy with rfl | hy
    · exact hnot
    · exact hq y hy
  have hitem : ∀ {c q}, c ∈ (t.get q).held → c ∈ (t.get s).items.getD [] → q = s := by
    intro c q hc hitem
    have hparent := hwf.mem_held_iff.mp hc
    rw [hwf.mem_held_iff.mp (mem_append_right (t.children s) hitem)] at hparent
    exact (Option.some.inj hparent).symm
  have hchild : ∀ {c q}, c ∈ t.children q → t.OffItems s q → t.OffItems s c := by
    intro c q hc hq
    refine hup (mem_held_of_mem_children hc) hq fun hmem => ?_
    obtain rfl := hitem (mem_held_of_mem_children hc) hmem
    have hnodup : (t.children q ++ (t.get q).items.getD []).Nodup := hwf.held_nodup q
    exact (nodup_append.mp hnodup).2.2 c hc c hmem rfl
  induction h with
  | @module m hm =>
    intro y hy
    rw [ancestors_eq_nil (howned.module_root hm), mem_singleton] at hy
    subst hy
    exact fun hmem => howned.module_not_held hm s (mem_append_right _ hmem)
  | held _ hq hc ih =>
    refine hup hc ih fun hmem => hunmet ?_
    exact hitem hc hmem ▸ hq
  | @hoisted owner d _ hd ih =>
    have hexposed := hd.exposed
    clear hd
    induction hexposed with
    | child hc => exact hchild hc ih
    | deeper _ _ hc ihx => exact hchild hc ihx

end Way

end PairTree

end PairMarkup
