import PairMarkup.Proofs.Construction.Modules
import PairMarkup.Proofs.Construction.Strokes

namespace PairMarkup

namespace PairTree

/-- All pairs from `n` on are from one file. -/
def Stamped (origin : String × Nat) (n : Nat) (t : PairTree) : Prop :=
  ∀ x, n ≤ x → x < t.size → (t.get x).origin = origin

namespace Stamped

variable {origin : String × Nat} {n : Nat} {t t' : PairTree}

section

variable (h : t.Stamped origin n)

include h

theorem add {pair : Pair} (hpair : pair.origin = origin) : (t.add pair).2.Stamped origin n := by
  intro x hn hx
  rw [get_add]
  split
  · exact hpair
  · rename_i hne
    rw [size_add] at hx
    exact h x hn (Nat.lt_of_le_of_ne (Nat.le_of_lt_succ hx) hne)

theorem modify (id : PairId) {f : Pair → Pair} (hf : ∀ pair, (f pair).origin = pair.origin) :
    (t.modify id f).Stamped origin n := by
  intro x hn hx
  rw [size_modify] at hx
  rw [modify_eq_of_keeps Pair.origin t id x hf]
  exact h x hn hx

theorem append {parent child : PairId} (happend : t.append parent child = .ok t') : t'.Stamped origin n := by
  obtain ⟨isChoice, rfl⟩ := append_eq_ok happend
  apply modify (h.modify child _) parent
  all_goals exact fun _ => rfl

theorem strokes {m : Nat} (hstrokes : Strokes origin m t t') : t'.Stamped origin n := by
  induction hstrokes with
  | refl => exact h
  | tail _ hstroke ih =>
    cases hstroke with
    | make _ horigin => exact ih.add horigin
    | hang _ happend => exact ih.append happend
    | adjust id _ _ horigin => exact ih.modify id horigin
    | fill _ _ _ horigin => exact ih.modify _ horigin
    | refer => exact ih.modify _ fun _ => rfl

theorem settle {root : PairId} (hsettles : Settles root t t') : t'.Stamped origin n := by
  intro x hn hx
  rw [hsettles.size_eq] at hx
  exact (congrArg Pair.origin (hsettles.told_eq x) :).trans (h x hn hx)

end

end Stamped

end PairTree

namespace ModuleSet

open PairTree

/-- Every pair is from the file of the module that it hangs from. -/
def Stamped (set : ModuleSet) : Prop :=
  ∀ i m, set.modules[i]? = some m → ∀ x, set.tree.HangsFrom m x → (set.tree.get x).origin = ((set.tree.get m).file, i)

variable {set set' : ModuleSet} {file : String} {format : Format} {text : List Char}

theorem origin_of_parse (h : set.Parsed) (hok : (set.parse file format text).result = .ok set') {x : PairId}
    (hx : set'.tree.HangsFrom set.tree.size x) : (set'.tree.get x).origin = (file, set.modules.length) := by
  have hwf' := (h.parse hok).tree_parsed.wellFormed
  have hlt : x < set'.tree.size := by
    rcases hx.cases_tail with heq | ⟨p, -, hheld⟩
    · exact heq ▸ (parse_laid h hok).2.1
    · exact hwf'.held_lt_size hheld
  have hmodule := set.root_mem_modules file format
  have horigin : (set.nextSite file format).origin = (file, set.modules.length) :=
    congrArg (Prod.mk file) (congrArg Pair.fileIndex (get_add_self ..))
  obtain ⟨b, hlines, rfl⟩ := parse_eq_ok hok
  have hopened : (set.opened file format).tree.Stamped (set.nextSite file format).origin set.tree.size := by
    intro x hn hx
    rw [tree_opened, size_add] at hx
    obtain rfl : x = set.tree.size := Nat.le_antisymm (Nat.le_of_lt_succ hx) hn
    rw [horigin, tree_opened, get_add_self]
    rfl
  have hstamped : b.tree.Stamped (set.nextSite file format).origin set.tree.size :=
    foldlM_ok_induction (P := fun b : Builder => b.tree.Stamped _ set.tree.size)
      (fun b line _ b' hb hstep => hb.strokes (Builder.addLine_draws hstep).strokes)
      hopened hlines
  obtain ⟨-, hahead, -⟩ := (opened_ahead h file format).addLines_adds hmodule (Line.ofText_inOrder text) hlines
  have hsettles := (Builder.finish_settles hahead.parsed hmodule hahead.apart).1
  have hle : set.tree.size ≤ x := hahead.apart.le_of_hangsFrom hahead.parsed.wellFormed
    (hx.of_parent_eq hahead.parsed.wellFormed hwf' hsettles.parent_eq) le_rfl
  exact (hstamped.settle hsettles x hle hlt).trans horigin

theorem Stamped.parse (hstamped : set.Stamped) (h : set.Parsed) (hok : (set.parse file format text).result = .ok set') :
    set'.Stamped := by
  have hwf := h.tree_parsed.wellFormed
  obtain ⟨hmodules, hsize, hbefore, -⟩ := parse_laid h hok
  intro i m hm x hx
  rw [hmodules, List.getElem?_append] at hm
  split at hm
  · have hlt := h.tree_parsed.module_lt_size (List.mem_of_getElem? hm)
    obtain ⟨hx, hxlt⟩ := hx.of_before hwf hbefore hlt
    rw [hbefore x hxlt, hbefore m hlt]
    exact hstamped i m hm x hx
  · obtain ⟨hi, hm⟩ := List.getElem?_eq_some_iff.mp hm
    rw [List.length_singleton] at hi
    obtain rfl : set.tree.size = m := by rw [← hm, List.getElem_singleton]
    have hfile : (set'.tree.get set.tree.size).file = file := congrArg Prod.fst (origin_of_parse h hok .refl)
    have hlength : set.modules.length = i := by omega
    rw [origin_of_parse h hok hx, hfile, hlength]

end ModuleSet

namespace Session

theorem stamped_of_start {limit : Option Nat} {sources : List Source} {s : Session}
    (hok : (start limit).parseAll sources = .ok s) : s.set.Stamped :=
  start_induction (P := ModuleSet.Stamped) (fun _ _ hm => nomatch hm) (fun hset hstamped => hstamped.parse hset) hok

end Session

end PairMarkup
