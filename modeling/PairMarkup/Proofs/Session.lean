import PairMarkup.Proofs.Resolution.Coverage

namespace PairMarkup

theorem Collection.entries_of_receiveAll {c c' : Collection} {ds : List Diagnostic}
    (h : c.receiveAll ds = .ok c') : c'.entries = c.entries ++ ds := by
  induction ds generalizing c with
  | nil =>
    cases h
    rw [List.append_nil]
  | cons d ds ih =>
    simp only [receiveAll] at h
    cases hreceive : c.receive d with
    | error failure =>
      rw [hreceive] at h
      cases h
    | ok received =>
      rw [hreceive] at h
      have hone : received.entries = c.entries ++ [d] := by
        unfold receive at hreceive
        split at hreceive
        · split at hreceive
          · cases hreceive
            rfl
          · cases hreceive
        · cases hreceive
          rfl
      rw [ih h, hone, List.append_assoc]
      rfl

namespace Session

variable {limit : Option Nat} {sources : List Source} {parsed resolved : Session}

/-- What resolving comes to: the walk over the modules, with all that it found handed
    over in order. -/
theorem resolve_spec (h : parsed.resolve = .ok resolved) : resolved.set = (Progress.run parsed.set).set ∧
      resolved.collection.entries = parsed.collection.entries ++ parsed.set.resolve.2.map (·.diagnostic) := by
  rw [resolve_eq_accept, accept] at h
  split at h
  · cases h
  · rename_i hreceive
    cases h
    exact ⟨rfl, Collection.entries_of_receiveAll hreceive⟩

theorem run_tree_eq (h : parsed.resolve = .ok resolved) : (Progress.run parsed.set).tree = resolved.set.tree :=
  congrArg ModuleSet.tree (resolve_spec h).1.symm

theorem modules_eq (hparse : (start limit).parseAll sources = .ok parsed)
    (hresolve : parsed.resolve = .ok resolved) : parsed.set.modules = resolved.set.modules := by
  rw [(resolve_spec hresolve).1]
  exact (parsed_of_start hparse).run_tracked.modules_eq.symm

theorem resolved_wellFormed (hparse : (start limit).parseAll sources = .ok parsed)
    (hresolve : parsed.resolve = .ok resolved) : resolved.set.tree.WellFormed :=
  run_tree_eq hresolve ▸ (parsed_of_start hparse).run_tracked.covered.wellFormed

/-- Reads and resolves, and looks at the two states. -/
def confirms (limit : Option Nat) (sources : List Source) (check : Session → Session → Bool) : Bool :=
  match (start limit).parseAll sources with
  | .error _ => false
  | .ok parsed =>
    match parsed.resolve with
    | .error _ => false
    | .ok resolved => check parsed resolved

theorem exists_of_confirms {check : Session → Session → Bool} (h : confirms limit sources check) :
    ∃ parsed resolved, (start limit).parseAll sources = .ok parsed ∧ parsed.resolve = .ok resolved ∧
      check parsed resolved := by
  unfold confirms at h
  split at h
  · cases h
  · rename_i parsed hparse
    split at h
    · cases h
    · rename_i resolved hresolve
      exact ⟨parsed, resolved, hparse, hresolve, h⟩

theorem exists_confirmed {P : Session → Session → Prop} [∀ parsed resolved, Decidable (P parsed resolved)]
    (h : confirms limit sources (fun parsed resolved => P parsed resolved)) :
    ∃ parsed resolved, (start limit).parseAll sources = .ok parsed ∧ parsed.resolve = .ok resolved ∧
      P parsed resolved := by
  obtain ⟨parsed, resolved, hparse, hresolve, hcheck⟩ := exists_of_confirms h
  exact ⟨parsed, resolved, hparse, hresolve, of_decide_eq_true hcheck⟩

end Session

end PairMarkup
