import PairMarkup.Proofs.Tree.Acyclic

namespace PairMarkup.PairTree

open List

/-- A pair and all that hangs from it, by any number of steps downwards. -/
def HangsFrom (t : PairTree) (root x : PairId) : Prop := Relation.ReflTransGen (fun p c => c ∈ (t.get p).held) root x

variable {t : PairTree} {root x : PairId}

theorem Acyclic.preorderTo_eq_preorder (h : t.Acyclic) {n : Nat} (hx : x < t.size)
    (hn : t.size ≤ n) : t.preorderTo n x = t.preorder x := by
  refine h.walk_down_stable (F := t.preorderTo) (fun n m x hheld => ?_) hx (by omega) (by omega)
  simp only [preorderTo]
  rw [flatMap_congr hheld]

theorem Acyclic.preorder_eq_cons (h : t.Acyclic) (hx : x < t.size) :
    t.preorder x = x :: (t.get x).held.flatMap t.preorder := by
  rw [← h.preorderTo_eq_preorder hx (Nat.le_succ t.size)]
  rfl

namespace WellFormed

section

variable (hwf : t.WellFormed)

include hwf

/-- To hang from a pair is to have it among one's ancestors. -/
theorem hangsFrom_iff : t.HangsFrom root x ↔ x = root ∨ root ∈ t.ancestors x := by
  constructor
  · intro h
    induction h with
    | refl => exact .inl rfl
    | @tail p c _ hc ih =>
      rw [hwf.ancestors_eq_cons (hwf.mem_held_iff.mp hc)]
      rcases ih with rfl | hmem
      · exact .inr mem_cons_self
      · exact .inr (mem_cons_of_mem _ hmem)
  · rintro (rfl | hmem)
    · exact .refl
    · induction x using hwf.induction_up with
      | root x hx => simp [ancestors_eq_nil hx] at hmem
      | child x p hp ih =>
        rw [hwf.ancestors_eq_cons hp] at hmem
        have hstep : x ∈ (t.get p).held := hwf.mem_held_iff.mpr hp
        rcases mem_cons.mp hmem with rfl | hmem
        · exact .single hstep
        · exact (ih hmem).tail hstep

theorem mem_preorder_iff (hroot : root < t.size) : x ∈ t.preorder root ↔ t.HangsFrom root x := by
  refine hwf.induction_down (P := fun root => x ∈ t.preorder root ↔ t.HangsFrom root x) ?_ hroot
  intro root hroot ih
  rw [hwf.acyclic.preorder_eq_cons hroot, mem_cons, mem_flatMap]
  constructor
  · rintro (rfl | ⟨c, hc, hx⟩)
    · exact .refl
    · exact ((ih c hc).mp hx).head hc
  · intro h
    rcases h.cases_head with rfl | ⟨c, hc, hx⟩
    · exact .inl rfl
    · exact .inr ⟨c, hc, (ih c hc).mpr hx⟩

theorem preorder_nodup {x : PairId} (hx : x < t.size) : (t.preorder x).Nodup := by
  refine hwf.induction_down (P := fun x => (t.preorder x).Nodup) ?_ hx
  intro x hx ih
  rw [hwf.acyclic.preorder_eq_cons hx, nodup_cons, nodup_flatMap]
  have hlineage : ∀ {c y}, c ∈ (t.get x).held → y ∈ t.preorder c → c ∈ y :: t.ancestors y := by
    intro c y hc hy
    rw [hwf.mem_preorder_iff (hwf.held_lt_size hc), hwf.hangsFrom_iff] at hy
    exact mem_cons.mpr (hy.imp_left Eq.symm)
  refine ⟨?_, ih, ?_⟩
  · rw [mem_flatMap]
    rintro ⟨c, hc, hmem⟩
    have hdown := hwf.mem_ancestors_of_parent (hwf.mem_held_iff.mp hc)
    rcases mem_cons.mp (hlineage hc hmem) with rfl | hup
    · exact hwf.not_mem_ancestors_self _ hdown
    · exact hwf.not_mem_ancestors_self _ (hwf.mem_ancestors_trans hdown hup)
  · refine (hwf.held_nodup x).imp_of_mem fun {a b} ha hb hab => ?_
    intro y hya hyb
    exact hab (hwf.eq_of_lineage (hlineage ha hya) (hlineage hb hyb)
      (hwf.mem_held_iff.mp ha) (hwf.mem_held_iff.mp hb))

/-- All lists of held pairs taken together name no pair twice. -/
theorem all_held_nodup : ((List.range t.size).flatMap fun p => (t.get p).held).Nodup := by
  rw [nodup_flatMap]
  refine ⟨fun p _ => hwf.held_nodup p, ?_⟩
  refine nodup_range.imp fun {a b} hab => ?_
  intro c hca hcb
  have hparent := (hwf.mem_held_iff.mp hca).symm.trans (hwf.mem_held_iff.mp hcb)
  exact hab (Option.some.inj hparent)

/-- The chain of parents of a pair ends where the pair hangs from, if that has no
    parent itself. -/
theorem getLast_ancestors (hroot : t.parent? root = none)
    (h : t.HangsFrom root x) : (x :: t.ancestors x).getLast? = some root := by
  induction h with
  | refl => simp [ancestors_eq_nil hroot]
  | tail _ hc ih =>
    rw [hwf.ancestors_eq_cons (hwf.mem_held_iff.mp hc), getLast?_cons_cons]
    exact ih

end

end WellFormed

end PairMarkup.PairTree
